import Packrat.Proofs.Copies
import Packrat.Proofs.Discovery
import Packrat.Proofs.LeftRecursion

/-!
# One or more, and one followed by zero or more

A repetition that asks for at least one match of its item covers what the item followed by any number
of further ones covers, with one exception. The iterations end at a match of nothing, which is not kept;
so where the item matches nothing at all, a repetition of at least one has no iteration to show and does
not match, although its item does.

* `Iterated` — where the iterations of an item end. `DefinedThroughout` — the item has a plain outcome
  wherever they lead, and then they do end (`DefinedThroughout.exists_iterated`).
* `Plain.repeated`, `Plain.pair` — what a repetition and a sequence of two cover by the rules alone.
* `plain_oneOrMore` — the two expressions against each other by the rules alone.
* **`oneOrMore_eq_row`** — the same in the first phase, and `oneOrMore_misses_empty` — the exception.
-/

namespace Packrat

variable {ctx : Context} {item other id : ClauseId} {pos stop : Nat}

/-! ## Where iterations end -/

/-- Whether matches of an item that cover input lead from one position to another. -/
inductive LeadsOn (ctx : Context) (item : ClauseId) : Nat → Nat → Prop
  | here {pos : Nat} : LeadsOn ctx item pos pos
  | next {pos place len : Nat} {outcome : Outcome} : Plain ctx item pos outcome →
      outcome.len? = some len → 0 < len → LeadsOn ctx item (pos + len) place → LeadsOn ctx item pos place

/-- **Whether an item has a plain outcome throughout**: at a position, and wherever its matches lead from
there. -/
def DefinedThroughout (ctx : Context) (item : ClauseId) (pos : Nat) : Prop :=
  ∀ place, LeadsOn ctx item pos place → ∃ outcome, Plain ctx item place outcome

/-- Whether the iterations of an item from one position end at another: the item does not match there,
or matches nothing. -/
inductive Iterated (ctx : Context) (item : ClauseId) : Nat → Nat → Prop
  | ends {pos : Nat} {outcome : Outcome} : Plain ctx item pos outcome → outcome.len?.getD 0 = 0 →
      Iterated ctx item pos pos
  | next {pos stop len : Nat} {outcome : Outcome} : Plain ctx item pos outcome →
      outcome.len? = some len → 0 < len → Iterated ctx item (pos + len) stop →
      Iterated ctx item pos stop

/-- Iterations do not go back. -/
theorem Iterated.le (h : Iterated ctx item pos stop) : pos ≤ stop := by
  induction h with
  | ends => exact Nat.le_refl _
  | next _ _ _ _ ih => omega

/-- The iterations of another clause for the same expression end in the same place. -/
theorem Iterated.copy {e : Expr} (hitem : ctx.grammar.Denotes e item)
    (hother : ctx.grammar.Denotes e other) (h : Iterated ctx item pos stop) :
    Iterated ctx other pos stop := by
  induction h with
  | ends hplain hempty =>
    obtain ⟨outcome', hplain', hspan⟩ := hplain.exists_copy hitem hother
    refine .ends hplain' ?_
    rw [Outcome.len?_eq, hspan, ← Outcome.len?_eq]
    exact hempty
  | next hplain hlen hpos _ ih =>
    obtain ⟨outcome', hplain', hspan⟩ := hplain.exists_copy hitem hother
    refine .next hplain' ?_ hpos ih
    rw [Outcome.len?_eq, hspan, ← Outcome.len?_eq]
    exact hlen

/-- A match of some length. -/
theorem Outcome.exists_node {outcome : Outcome} {len : Nat} (h : outcome.len? = some len) :
    ∃ node, outcome = .matched node ∧ node.len = len := by
  cases outcome with
  | matched node => exact ⟨node, rfl, Option.some.inj h⟩
  | mismatch | pending => cases h

section wellFormed

variable (hg : ctx.grammar.WellFormed)
include hg

/-- A plain match ends inside the input. -/
theorem Plain.add_len_le (hpos : pos ≤ ctx.input.size) {outcome : Outcome} {len : Nat}
    (h : Plain ctx id pos outcome) (hlen : outcome.len? = some len) : pos + len ≤ ctx.input.size := by
  obtain ⟨node, rfl, rfl⟩ := Outcome.exists_node hlen
  have hnode := Plain.sound hg hpos h node rfl
  rw [← hnode.stop_eq]
  exact hnode.stop_le

/-- **Iterations end** if the item is defined throughout: each but the last covers input, and there is
only so much of it. -/
theorem DefinedThroughout.exists_iterated {pos : Nat} (hpos : pos ≤ ctx.input.size)
    (h : DefinedThroughout ctx item pos) : ∃ stop, Iterated ctx item pos stop := by
  obtain ⟨outcome, hplain⟩ := h pos .here
  cases hlen : outcome.len?.getD 0 with
  | zero => exact ⟨pos, .ends hplain hlen⟩
  | succ less =>
    have hsome : outcome.len? = some (less + 1) := by
      cases hlen' : outcome.len? with
      | none =>
        rw [hlen'] at hlen
        cases hlen
      | some len =>
        rw [hlen'] at hlen
        exact congrArg some hlen
    have hle := Plain.add_len_le hg hpos hplain hsome
    have hrest : DefinedThroughout ctx item (pos + (less + 1)) := fun place hplace =>
      h place (.next hplain hsome (Nat.succ_pos less) hplace)
    obtain ⟨stop, hstop⟩ := exists_iterated hle hrest
    exact ⟨stop, .next hplain hsome (Nat.succ_pos less) hstop⟩
termination_by ctx.input.size - pos

/-- What the iterations give by the rules alone: matches that stand one after the other up to their end.
-/
theorem Iterated.exists_nodes (hpos : pos ≤ ctx.input.size) (h : Iterated ctx item pos stop) :
    ∃ fuel nodes short, plainIterations ctx (plainAtFuel ctx fuel) item fuel pos = some (nodes, short) ∧
      Tiles pos nodes stop ∧ (nodes = [] → stop = pos) ∧ (nodes ≠ [] → pos < stop) := by
  induction h with
  | @ends pos outcome hplain hempty =>
    obtain ⟨fuel, hfuel⟩ := hplain
    have hmore := plainAtFuel_mono_success ctx (Nat.le_succ fuel) item pos outcome hfuel
    refine ⟨fuel + 1, [], ?_⟩
    rw [plainIterations, if_neg (Nat.not_lt.2 hpos), hmore]
    cases outcome with
    | matched node =>
      have hlen : node.len = 0 := hempty
      exact ⟨false, by simp [hlen], rfl, fun _ => rfl, fun h => absurd rfl h⟩
    | mismatch | pending => exact ⟨_, rfl, rfl, fun _ => rfl, fun h => absurd rfl h⟩
  | @next pos stop len outcome hplain hlen hcovers hrest ih =>
    obtain ⟨node, rfl, rfl⟩ := Outcome.exists_node hlen
    have hnode := Plain.sound hg hpos hplain node rfl
    obtain ⟨fuel', nodes, short, hiterations, htiles, -, -⟩ :=
      ih (Plain.add_len_le hg hpos hplain hlen)
    obtain ⟨fuel, hfuel⟩ := hplain
    have hle : fuel ≤ max fuel fuel' + 1 := by omega
    have hle' : fuel' ≤ max fuel fuel' + 1 := by omega
    have hfirst := plainAtFuel_mono_success ctx hle item pos _ hfuel
    have hothers := plainIterations_within (plainAtFuel_mono_success ctx hle') item _
      (Nat.le_max_right fuel fuel') _ hiterations
    refine ⟨max fuel fuel' + 1, node :: nodes, short, ?_, ?_,
      fun h => absurd h (List.cons_ne_nil node nodes), fun _ => ?_⟩
    · rw [plainIterations, if_neg (Nat.not_lt.2 hpos), hfirst]
      simp [Nat.ne_of_gt hcovers, hothers]
    · refine ⟨hnode.pos_eq, ?_⟩
      rw [hnode.stop_eq]
      exact htiles
    · have hle := hrest.le
      omega

/-- **What a repetition covers** by the rules alone: all iterations, unless it asks for one and there is
none that covers input. -/
theorem Plain.repeated {atLeastOne : Bool} (hpos : pos ≤ ctx.input.size)
    (hclause : ctx.grammar.clause? id = some (.repeated item atLeastOne))
    (h : Iterated ctx item pos stop) :
    ∃ outcome, Plain ctx id pos outcome ∧
      outcome.len? = if atLeastOne = true ∧ stop = pos then none else some (stop - pos) := by
  obtain ⟨fuel, nodes, short, hiterations, htiles, hnil, hcons⟩ := h.exists_nodes hg hpos
  cases nodes with
  | nil =>
    obtain rfl := hnil rfl
    refine ⟨if atLeastOne then .mismatch else .matched (.emptyAt id stop !short), ⟨fuel + 1, ?_⟩, ?_⟩
    · rw [plainAtFuel, if_neg (Nat.not_lt.2 hpos), hclause]
      simp [plainClause, hiterations]
    · cases atLeastOne <;> simp [Outcome.len?, Outcome.node?, Node.len, Node.emptyAt]
  | cons node nodes =>
    have hlt := hcons (List.cons_ne_nil node nodes)
    have hstop : ∀ complete, (Node.wrap id (node :: nodes) complete).len = stop - pos := by
      intro complete
      rw [Node.wrap_eq htiles (List.cons_ne_nil node nodes), Node.len]
    refine ⟨.matched (.wrap id (node :: nodes) (!short && (node :: nodes).all Node.isComplete)),
      ⟨fuel + 1, ?_⟩, ?_⟩
    · rw [plainAtFuel, if_neg (Nat.not_lt.2 hpos), hclause]
      simp [plainClause, hiterations]
    · rw [if_neg fun h => Nat.ne_of_gt hlt h.2]
      exact congrArg some (hstop _)

/-- **What a sequence of two covers** by the rules alone. -/
theorem Plain.pair {first second : ClauseId} {one two : Outcome} (hpos : pos ≤ ctx.input.size)
    (hclause : ctx.grammar.clause? id = some (.seq [first, second])) (hone : Plain ctx first pos one)
    (htwo : ∀ len, one.len? = some len → Plain ctx second (pos + len) two) :
    ∃ outcome, Plain ctx id pos outcome ∧
      outcome.len? = one.len?.bind fun len => two.len?.map (len + ·) := by
  cases one with
  | mismatch | pending =>
    obtain ⟨fuel, hfuel⟩ := hone
    refine ⟨.mismatch, ⟨fuel + 1, ?_⟩, rfl⟩
    rw [plainAtFuel, if_neg (Nat.not_lt.2 hpos), hclause]
    simp [plainClause, plainElements, hfuel]
  | matched node =>
    have htwo := htwo node.len rfl
    have hnode := Plain.sound hg hpos hone node rfl
    have hle := Plain.add_len_le hg hpos hone rfl
    have hsecond := Plain.sound hg hle htwo
    obtain ⟨fuel, hfuel⟩ := hone
    obtain ⟨fuel', hfuel'⟩ := htwo
    have hfirst := plainAtFuel_mono_success ctx (Nat.le_max_left fuel fuel') first pos _ hfuel
    have hrest := plainAtFuel_mono_success ctx (Nat.le_max_right fuel fuel') second _ _ hfuel'
    cases two with
    | mismatch | pending =>
      refine ⟨.mismatch, ⟨max fuel fuel' + 1, ?_⟩, rfl⟩
      rw [plainAtFuel, if_neg (Nat.not_lt.2 hpos), hclause]
      simp [plainClause, plainElements, hfirst, hrest]
    | matched node' =>
      have htiles : Tiles pos [node, node'] node'.stop := by
        refine ⟨hnode.pos_eq, ?_, rfl⟩
        rw [hnode.stop_eq]
        exact (hsecond node' rfl).pos_eq
      refine ⟨.matched (.wrap id [node, node'] ([node, node'].all Node.isComplete)),
        ⟨max fuel fuel' + 1, ?_⟩, ?_⟩
      · rw [plainAtFuel, if_neg (Nat.not_lt.2 hpos), hclause]
        simp [plainClause, plainElements, hfirst, hrest]
      · have hlen : pos + node.len + node'.len - pos = node.len + node'.len := by omega
        rw [Node.wrap_eq htiles (List.cons_ne_nil _ _), (hsecond node' rfl).stop_eq]
        exact congrArg some hlen

/-- **At least one, by the rules alone**: three clauses for an expression, for its repetition and for
the expression before a repetition of any number. -/
theorem plain_oneOrMore {e : Expr} {plus row : ClauseId} (hpos : pos ≤ ctx.input.size)
    (hitem : ctx.grammar.Denotes e item) (hplus : ctx.grammar.Denotes (.repeated e true) plus)
    (hrow : ctx.grammar.Denotes (.seq [e, .repeated e false]) row)
    (hdefined : DefinedThroughout ctx item pos) :
    ∃ one more both, Plain ctx item pos one ∧ Plain ctx plus pos more ∧ Plain ctx row pos both ∧
      both.len?.isSome = one.len?.isSome ∧ more.len? = both.len?.filter (0 < ·) ∧
      (one.len? = some 0 ↔ both.len? = some 0) := by
  obtain ⟨child, hrepeated, hchild⟩ := hplus
  obtain ⟨_, hseq, first, _, rfl, hfirst, star, _, rfl, ⟨inner, hstar, hinner⟩, rfl⟩ := hrow
  obtain ⟨stop, hiterated⟩ := hdefined.exists_iterated hg hpos
  obtain ⟨more, hmore, hmoreLen⟩ := Plain.repeated hg hpos hrepeated (hiterated.copy hitem hchild)
  cases hiterated with
  | @ends _ one hone hempty =>
    -- What follows the first match, if there is one, starts where it does and covers nothing.
    obtain ⟨one', hone', hspan⟩ := hone.exists_copy hitem hfirst
    have hlen : one'.len? = one.len? := by rw [Outcome.len?_eq, hspan, ← Outcome.len?_eq]
    obtain ⟨two, htwo, htwoLen⟩ := Plain.repeated hg hpos hstar
      ((Iterated.ends hone hempty).copy hitem hinner)
    obtain ⟨both, hboth, hbothLen⟩ := Plain.pair hg hpos hseq hone' fun len hsome => by
      rw [hlen] at hsome
      rw [hsome] at hempty
      obtain rfl : len = 0 := hempty
      exact htwo
    refine ⟨one, more, both, hone, hmore, hboth, ?_⟩
    rw [hbothLen, hmoreLen, htwoLen, hlen]
    cases hsome : one.len? with
    | none => simp
    | some len =>
      rw [hsome] at hempty
      obtain rfl : len = 0 := hempty
      simp [Option.filter_some]
  | @next _ _ len one hone hsome hcovers hrest =>
    obtain ⟨one', hone', hspan⟩ := hone.exists_copy hitem hfirst
    have hlen : one'.len? = some len := by rw [Outcome.len?_eq, hspan, ← Outcome.len?_eq, hsome]
    have hle := hrest.le
    obtain ⟨two, htwo, htwoLen⟩ := Plain.repeated hg (Plain.add_len_le hg hpos hone hsome) hstar
      (hrest.copy hitem hinner)
    obtain ⟨both, hboth, hbothLen⟩ := Plain.pair hg hpos hseq hone' fun len' hsome' => by
      obtain rfl : len = len' := Option.some.inj (hlen.symm.trans hsome')
      exact htwo
    have hcovered : both.len? = some (stop - pos) := by
      rw [hbothLen, hlen, htwoLen, if_neg fun h => Bool.false_ne_true h.1]
      exact congrArg some (show len + (stop - (pos + len)) = stop - pos by omega)
    refine ⟨one, more, both, hone, hmore, hboth, ?_⟩
    rw [hcovered, hmoreLen, hsome]
    have hlt : pos < stop := by omega
    refine ⟨rfl, ?_, ?_⟩
    · rw [if_neg fun h => Nat.ne_of_gt hlt h.2]
      simp only [Option.filter_some, decide_eq_true_eq]
      rw [if_pos (Nat.sub_pos_of_lt hlt)]
    · rw [Option.some.injEq, Option.some.injEq]
      omega

end wellFormed

/-! ## One followed by any number -/

/-- There is a match if and only if it has a length. -/
theorem Outcome.isMatch_eq (outcome : Outcome) : outcome.isMatch = outcome.len?.isSome := by
  cases outcome <;> rfl

/-- **At least one is one followed by any number**, unless the one is nothing. In the first phase, where
the plain evaluation of an expression is defined throughout, a repetition of at least one matches if and
only if the expression does, and covers what the expression followed by a repetition of any number
covers, wherever the expression does not match the empty text. Where it does, so does the sequence, but
the repetition does not match. -/
theorem oneOrMore_eq_row {definitions : List Definition} {g : Grammar}
    (hb : Grammar.build definitions = .ok g) {input : Array Char} {e : Expr} {item plus row : ClauseId}
    (hitem : g.Denotes e item) (hplus : g.Denotes (.repeated e true) plus)
    (hrow : g.Denotes (.seq [e, .repeated e false]) row) {pos : Nat} (hpos : pos ≤ input.size)
    (hdefined : DefinedThroughout ⟨g, input⟩ item pos) :
    ∃ one more both, Context.Finds ⟨g, input⟩ item pos one ∧ Context.Finds ⟨g, input⟩ plus pos more ∧
      Context.Finds ⟨g, input⟩ row pos both ∧
      (one.len? ≠ some 0 → more.isMatch = one.isMatch ∧ more.len? = both.len?) ∧
      (one.len? = some 0 → more.isMatch = false ∧ both.len? = some 0) := by
  have hg : (Context.mk g input).grammar.WellFormed := build_wellFormed hb
  obtain ⟨one, more, both, hone, hmore, hboth, hmatch, hlen, hempty⟩ :=
    plain_oneOrMore hg hpos hitem hplus hrow hdefined
  refine ⟨one, more, both, hone.finds hg hpos, hmore.finds hg hpos, hboth.finds hg hpos,
    fun hne => ?_, fun hnothing => ?_⟩
  · have hsame : more.len? = both.len? := by
      rw [hlen]
      cases hcovered : both.len? with
      | none => rfl
      | some len =>
        have hcovers : 0 < len := by
          refine Nat.pos_of_ne_zero ?_
          rintro rfl
          exact hne (hempty.2 hcovered)
        simp [Option.filter_some, hcovers]
    rw [Outcome.isMatch_eq, Outcome.isMatch_eq, hsame, hmatch]
    exact ⟨rfl, rfl⟩
  · have hcovered := hempty.1 hnothing
    rw [Outcome.isMatch_eq, hlen, hcovered]
    exact ⟨rfl, rfl⟩

/-- Runs of a letter, in both ways. -/
def runsDefinitions : List Definition :=
  [⟨"S", .choice [.plus (.lit "a"), .seq [.lit "a", .star (.lit "a")]]⟩]

/-- The grammar of runs. -/
def runsGrammar : Grammar where
  clauses := #[.literal ['a'], .repeated 0 true, .literal ['a'], .literal ['a'], .repeated 3 false,
    .seq [2, 4], .choice [1, 5]]
  rules := [⟨"S", false, 6⟩]

/-- Two letters: both ways cover them. -/
theorem oneOrMore_eq_row_runs :
    Grammar.build runsDefinitions = .ok runsGrammar ∧
      ∃ more both, Context.Finds ⟨runsGrammar, #['a', 'a', 'b']⟩ 1 0 more ∧
        Context.Finds ⟨runsGrammar, #['a', 'a', 'b']⟩ 5 0 both ∧ more.isMatch = true ∧
        more.len? = both.len? := by
  let ctx : Context := ⟨runsGrammar, #['a', 'a', 'b']⟩
  have hb : Grammar.build runsDefinitions = .ok runsGrammar := rfl
  have hitem : runsGrammar.Denotes (.literal ['a']) 0 := rfl
  have hplus : runsGrammar.Denotes (.repeated (.literal ['a']) true) 1 := ⟨0, rfl, rfl⟩
  have hrow : runsGrammar.Denotes (.seq [.literal ['a'], .repeated (.literal ['a']) false]) 5 :=
    ⟨[2, 4], rfl, 2, [4], rfl, rfl, 4, [], rfl, ⟨3, rfl, rfl⟩, rfl⟩
  have hdefined : DefinedThroughout ctx 0 0 := by
    intro place _
    have hsome : (plainAtFuel ctx 1 0 place).isSome = true := by
      rw [plainAtFuel]
      split <;> rfl
    obtain ⟨outcome, houtcome⟩ := Option.isSome_iff_exists.1 hsome
    exact ⟨outcome, 1, houtcome⟩
  have hone : Plain ctx 0 0 (.matched (.terminal 0 0 1)) := ⟨1, by decide⟩
  obtain ⟨one, more, both, hfound, hmore, hboth, hsame, -⟩ :=
    oneOrMore_eq_row hb hitem hplus hrow (Nat.zero_le 3) hdefined
  cases hfound.unique (hone.finds (build_wellFormed hb) (Nat.zero_le 3))
  obtain ⟨hmatch, hlen⟩ := hsame (by decide)
  exact ⟨hb, more, both, hmore, hboth, hmatch, hlen⟩

/-- Letters that may be missing, in both ways. -/
def hollowDefinitions : List Definition :=
  [⟨"S", .choice [.plus (.optional (.lit "a")),
    .seq [.optional (.lit "a"), .star (.optional (.lit "a"))]]⟩]

/-- The grammar of runs that may be hollow. -/
def hollowGrammar : Grammar where
  clauses := #[.literal ['a'], .optional 0, .repeated 1 true, .literal ['a'], .optional 3,
    .literal ['a'], .optional 5, .repeated 6 false, .seq [4, 7], .choice [2, 8]]
  rules := [⟨"S", false, 9⟩]

/-- **At least one of nothing does not match**: at the end of the input, a letter that may be missing
matches nothing, and so does one followed by any number of them; a repetition of at least one fails. -/
theorem oneOrMore_misses_empty :
    Grammar.build hollowDefinitions = .ok hollowGrammar ∧
      hollowGrammar.Denotes (.optional (.literal ['a'])) 1 ∧
      hollowGrammar.Denotes (.repeated (.optional (.literal ['a'])) true) 2 ∧
      hollowGrammar.Denotes (.seq [.optional (.literal ['a']),
        .repeated (.optional (.literal ['a'])) false]) 8 ∧
      DefinedThroughout ⟨hollowGrammar, #[]⟩ 1 0 ∧
      ∃ one more both, Context.Finds ⟨hollowGrammar, #[]⟩ 1 0 one ∧
        Context.Finds ⟨hollowGrammar, #[]⟩ 2 0 more ∧ Context.Finds ⟨hollowGrammar, #[]⟩ 8 0 both ∧
        one.isMatch = true ∧ both.len? = some 0 ∧ more.isMatch = false := by
  let ctx : Context := ⟨hollowGrammar, #[]⟩
  have hb : Grammar.build hollowDefinitions = .ok hollowGrammar := rfl
  have hg : ctx.grammar.WellFormed := build_wellFormed hb
  have hone : Plain ctx 1 0 (.matched (.emptyAt 1 0 true)) := ⟨2, by decide⟩
  have hmore : Plain ctx 2 0 .mismatch := ⟨4, by decide⟩
  have hboth : Plain ctx 8 0 (.matched (.wrap 8 [.emptyAt 4 0 true, .emptyAt 7 0 true] true)) :=
    ⟨5, by decide⟩
  have hdefined : DefinedThroughout ctx 1 0 := by
    rintro place (_ | ⟨hplain, hlen, hcovers, -⟩)
    · exact ⟨_, hone⟩
    · cases hplain.unique hone
      cases hlen
      cases hcovers
  exact ⟨hb, ⟨0, rfl, rfl⟩, ⟨1, rfl, 0, rfl, rfl⟩,
    ⟨[4, 7], rfl, 4, [7], rfl, ⟨3, rfl, rfl⟩, 7, [], rfl, ⟨6, rfl, 5, rfl, rfl⟩, rfl⟩, hdefined,
    _, _, _, hone.finds hg (Nat.zero_le 0), hmore.finds hg (Nat.zero_le 0),
    hboth.finds hg (Nat.zero_le 0), rfl, rfl, rfl⟩

end Packrat
