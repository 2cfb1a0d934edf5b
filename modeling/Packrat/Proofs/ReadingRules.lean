import Packrat.Proofs.NestedGrowth

/-!
# Readings of several clauses

What several clauses read together, without the fuel that it takes.

* `ReadsRow`, `ReadsMany`, `ReadsFirst` — what the elements of a sequence, the iterations of an item and
  the alternatives of a choice read.
* `Grown` — what the growth of the left-recursive rule comes to. `Turn` is one turn of it, by the first
  of its alternatives that matches; `Grown.step` and `Grown.ended` say how growth goes on after it.
-/

namespace Packrat

variable {ctx : Context} {rule : LeftRule}

/-! ## Several clauses -/

section reads

variable {id item : ClauseId} {ids : List ClauseId} {pos : Nat} {node : Node}

/-- Nothing matches beyond the end of the input. -/
theorem Reads.beyond (hpos : ctx.input.size < pos) : Reads ctx rule id pos .mismatch := by
  refine ⟨1, ?_⟩
  rw [readAtFuel, if_pos hpos]
  rfl

/-- A clause reads what the rule of its kind gives. -/
theorem Reads.of_clause {clause : Clause} {fuel : Nat} {outcome : Outcome}
    (hpos : pos ≤ ctx.input.size) (howns : ¬rule.Owns id)
    (hclause : ctx.grammar.clause? id = some clause)
    (h : plainClause ctx (readAtFuel ctx rule fuel) fuel id clause pos = some outcome) :
    Reads ctx rule id pos outcome := by
  refine ⟨fuel + 1, ?_⟩
  rw [readAtFuel, if_neg (Nat.not_lt.2 hpos), if_neg fun h => howns (.inl h),
    if_neg fun h => howns (.inr h), hclause]
  exact h

/-- Whether the elements of a row read so, or one of them does not match. -/
def ReadsRow (ctx : Context) (rule : LeftRule) (ids : List ClauseId) (pos : Nat)
    (row : Option (List Node)) : Prop :=
  ∃ fuel, plainElements (readAtFuel ctx rule fuel) ids pos = some row

/-- The first element of a row matches. -/
theorem ReadsRow.cons {row : Option (List Node)} (h : Reads ctx rule id pos (.matched node))
    (hrest : ReadsRow ctx rule ids (pos + node.len) row) :
    ReadsRow ctx rule (id :: ids) pos (row.map (node :: ·)) := by
  obtain ⟨fuel, hfuel⟩ := h
  obtain ⟨fuel', hfuel'⟩ := hrest
  refine ⟨max fuel fuel', ?_⟩
  have hfirst := readAtFuel_mono_success ctx rule (Nat.le_max_left fuel fuel') id pos _ hfuel
  have hothers := plainElements_within
    (readAtFuel_mono_success ctx rule (Nat.le_max_right fuel fuel')) ids _ _ hfuel'
  simp [plainElements, hfirst, hothers]

/-- The first element of a row does not match. -/
theorem ReadsRow.miss (h : Reads ctx rule id pos .mismatch) :
    ReadsRow ctx rule (id :: ids) pos none := by
  obtain ⟨fuel, hfuel⟩ := h
  exact ⟨fuel, by simp [plainElements, hfuel]⟩

/-- What the iterations of an item read, and whether they stop short of the end of the input. -/
def ReadsMany (ctx : Context) (rule : LeftRule) (item : ClauseId) (pos : Nat) (nodes : List Node)
    (short : Bool) : Prop :=
  ∃ fuel, plainIterations ctx (readAtFuel ctx rule fuel) item fuel pos = some (nodes, short)

/-- The item does not match. -/
theorem ReadsMany.nil (hpos : pos ≤ ctx.input.size) (h : Reads ctx rule item pos .mismatch) :
    ReadsMany ctx rule item pos [] (pos < ctx.input.size) := by
  obtain ⟨fuel, hfuel⟩ := h
  refine ⟨fuel + 1, ?_⟩
  have hitem := readAtFuel_mono_success ctx rule (Nat.le_succ fuel) item pos _ hfuel
  simp [plainIterations, hitem, Nat.not_lt.2 hpos]

/-- The item matches and covers input. -/
theorem ReadsMany.cons {nodes : List Node} {short : Bool} (hpos : pos ≤ ctx.input.size)
    (h : Reads ctx rule item pos (.matched node)) (hlen : node.len ≠ 0)
    (hrest : ReadsMany ctx rule item (pos + node.len) nodes short) :
    ReadsMany ctx rule item pos (node :: nodes) short := by
  obtain ⟨fuel, hfuel⟩ := h
  obtain ⟨fuel', hfuel'⟩ := hrest
  refine ⟨max fuel fuel' + 1, ?_⟩
  have hle : fuel ≤ max fuel fuel' + 1 := by omega
  have hle' : fuel' ≤ max fuel fuel' + 1 := by omega
  have hitem := readAtFuel_mono_success ctx rule hle item pos _ hfuel
  have hothers := plainIterations_within (readAtFuel_mono_success ctx rule hle') item _
    (Nat.le_max_right fuel fuel') _ hfuel'
  simp [plainIterations, hitem, hlen, hothers, Nat.not_lt.2 hpos]

/-- What an alternative reads, if it matches, with matchers that know more and more. -/
def Eventually (matchers : Nat → PlainMatcher) (pos : Nat) (id : ClauseId) (node : Option Node) : Prop :=
  ∃ fuel outcome, matchers fuel id pos = some outcome ∧ outcome.node? = node

/-- The first alternative that matches is found with one of the matchers. -/
theorem FirstOf.exists_plainFirst {matchers : Nat → PlainMatcher}
    (hmono : ∀ {fuel fuel'}, fuel ≤ fuel' → ∀ id pos,
      Within (matchers fuel id pos) (matchers fuel' id pos))
    {found : Option (ClauseId × Node)} (h : FirstOf (Eventually matchers pos) ids found) :
    ∃ fuel, plainFirst (matchers fuel) pos ids = some (found.map (·.2)) := by
  induction h with
  | nil => exact ⟨0, rfl⟩
  | here hgives =>
    obtain ⟨fuel, outcome, hfuel, houtcome⟩ := hgives
    cases outcome with
    | matched node =>
      cases houtcome
      exact ⟨fuel, by simp [plainFirst, hfuel]⟩
    | mismatch | pending => cases houtcome
  | @later id rest found hgives _ ih =>
    obtain ⟨fuel, outcome, hfuel, houtcome⟩ := hgives
    obtain ⟨fuel', hfuel'⟩ := ih
    refine ⟨max fuel fuel', ?_⟩
    have hfirst := hmono (Nat.le_max_left fuel fuel') id pos _ hfuel
    have hothers := plainFirst_within (hmono (Nat.le_max_right fuel fuel')) pos rest _ hfuel'
    cases outcome with
    | matched node => cases houtcome
    | mismatch | pending => simp [plainFirst, hfirst, hothers]

/-- Items that give nothing do not count. -/
theorem FirstOf.skip {α β : Type} {gives : α → Option β → Prop} {items : List α}
    {found : Option (α × β)} (h : FirstOf gives items found) :
    ∀ {others : List α}, (∀ a ∈ others, gives a none) → FirstOf gives (others ++ items) found
  | [], _ => h
  | first :: _, hnone =>
    .later (hnone first List.mem_cons_self)
      (h.skip fun a ha => hnone a (List.mem_cons_of_mem first ha))

/-- What the first alternative reads that matches, if there is one. -/
abbrev ReadsFirst (ctx : Context) (rule : LeftRule) (ids : List ClauseId) (pos : Nat)
    (found : Option (ClauseId × Node)) : Prop :=
  FirstOf (Eventually (readAtFuel ctx rule) pos) ids found

/-- An alternative that reads a match. -/
theorem Reads.matched (h : Reads ctx rule id pos (.matched node)) :
    Eventually (readAtFuel ctx rule) pos id (some node) := by
  obtain ⟨fuel, hfuel⟩ := h
  exact ⟨fuel, _, hfuel, rfl⟩

/-- An alternative that does not match. -/
theorem Reads.mismatch (h : Reads ctx rule id pos .mismatch) :
    Eventually (readAtFuel ctx rule) pos id none := by
  obtain ⟨fuel, hfuel⟩ := h
  exact ⟨fuel, _, hfuel, rfl⟩

end reads

/-! ## Growth -/

section growth

variable {pos : Nat} {node : Node}

/-- Whether the growth of the rule at a position comes from one match to another. -/
def Grown (ctx : Context) (rule : LeftRule) (pos : Nat) (seed final : Option Node) : Prop :=
  ∃ fuel, growFrom ctx (readAtFuel ctx rule fuel) rule pos fuel seed = some final

/-- What the first alternative of the rule gives that matches, with a match of the rule so far. -/
abbrev Turn (ctx : Context) (rule : LeftRule) (pos : Nat) (seed : Option Node)
    (found : Option (ClauseId × Node)) : Prop :=
  FirstOf (Eventually (fun fuel => seeded (readAtFuel ctx rule fuel) rule pos seed) pos)
    (rule.steps.map Step.id ++ rule.bases) found

/-- The rule reads what its growth comes to. -/
theorem Grown.reads {final : Option Node} (h : Grown ctx rule pos none final)
    (hpos : pos ≤ ctx.input.size) :
    Reads ctx rule rule.top pos (.ofNode? (final.map Node.markGrown)) := by
  obtain ⟨fuel, hfuel⟩ := h
  refine ⟨fuel + 1, ?_⟩
  rw [readAtFuel, if_neg (Nat.not_lt.2 hpos), if_pos rfl, hfuel]
  rfl

/-- What the body of the rule gives in a turn. -/
theorem Turn.exists_plainClause {seed : Option Node} {found : Option (ClauseId × Node)}
    (h : Turn ctx rule pos seed found) :
    ∃ fuel, plainClause ctx (seeded (readAtFuel ctx rule fuel) rule pos seed) 0 rule.top rule.body pos =
      some (.ofNode? (found.map fun item => item.2.lift rule.top)) := by
  obtain ⟨fuel, hfuel⟩ := h.exists_plainFirst fun hle =>
    seeded_within (readAtFuel_mono_success ctx rule hle) seed
  refine ⟨fuel, ?_⟩
  cases found with
  | none => simp [plainClause, LeftRule.body, hfuel, Outcome.ofNode?]
  | some item => simp [plainClause, LeftRule.body, hfuel, Outcome.ofNode?, Node.lift]

/-- Growth ends where a turn makes no progress. -/
theorem Grown.ended {seed : Option Node} {found : Option (ClauseId × Node)}
    (h : Turn ctx rule pos seed found)
    (hidle : (Outcome.ofNode? (found.map fun item => item.2.lift rule.top)).longerThan (.ofNode? seed) =
      false) : Grown ctx rule pos seed seed := by
  obtain ⟨fuel, hfuel⟩ := h.exists_plainClause
  refine ⟨fuel + 1, ?_⟩
  have hturn := plainClause_within (seeded_within (readAtFuel_mono_success ctx rule (Nat.le_succ fuel))
    seed) (Nat.le_refl 0) rule.top rule.body pos _ hfuel
  simp [growFrom, hturn, hidle]

/-- Growth goes on with a longer match. -/
theorem Grown.step {seed final : Option Node} {id : ClauseId}
    (h : Turn ctx rule pos seed (some (id, node)))
    (hlonger : (Outcome.matched (node.lift rule.top)).longerThan (.ofNode? seed) = true)
    (hrest : Grown ctx rule pos (some (node.lift rule.top)) final) :
    Grown ctx rule pos seed final := by
  obtain ⟨fuel, hfuel⟩ := h.exists_plainClause
  obtain ⟨fuel', hfuel'⟩ := hrest
  refine ⟨max fuel fuel' + 1, ?_⟩
  have hle : fuel ≤ max fuel fuel' + 1 := by omega
  have hle' : fuel' ≤ max fuel fuel' + 1 := by omega
  have hturn := plainClause_within (seeded_within (readAtFuel_mono_success ctx rule hle) seed)
    (Nat.le_refl 0) rule.top rule.body pos _ hfuel
  have hothers : growFrom ctx (readAtFuel ctx rule (max fuel fuel' + 1)) rule pos (max fuel fuel')
      (some (node.lift rule.top)) = some final :=
    growFrom_within (readAtFuel_mono_success ctx rule hle') _ (Nat.le_max_right fuel fuel') _ hfuel'
  simp only [Option.map_some, Outcome.ofNode?] at hturn
  simp [growFrom, hturn, hlonger, Outcome.node?, hothers]

/-- What a step gives in a turn. -/
theorem ReadsRow.eventually (hform : ctx.grammar.LeftRecursive rule.top rule.steps rule.bases)
    {step : Step} (hstep : step ∈ rule.steps) {row : Option (List Node)}
    (h : ReadsRow ctx rule step.tail (pos + node.len) row) :
    Eventually (fun fuel => seeded (readAtFuel ctx rule fuel) rule pos (some node)) pos step.id
      (row.map (step.row node)) := by
  obtain ⟨fuel, hfuel⟩ := h
  refine ⟨fuel, step.outcome node row, ?_, ?_⟩
  · simp [seeded, LeftRule.step?_eq hform hstep, Step.given, hfuel]
  · cases row <;> rfl

/-- What a base gives in a turn. -/
theorem Eventually.base {seed found : Option Node} {id : ClauseId} (howns : ¬rule.Owns id)
    (h : Eventually (readAtFuel ctx rule) pos id found) :
    Eventually (fun fuel => seeded (readAtFuel ctx rule fuel) rule pos seed) pos id found := by
  obtain ⟨fuel, outcome, hfuel, houtcome⟩ := h
  have hnone : rule.step? id = none := by
    cases hstep : rule.step? id with
    | none => rfl
    | some step => exact absurd (.inr (by simp [hstep])) howns
  exact ⟨fuel, outcome, by simp [seeded, hnone, hfuel], houtcome⟩

end growth
end Packrat
