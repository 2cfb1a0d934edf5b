import Packrat.Proofs.PlainMatching
import Packrat.Proofs.ReadBack

/-!
# Clauses that stand for one expression

Every occurrence of an expression in a grammar has clauses of its own. By the rules alone it makes no
difference which of them is matched: where one has an outcome so has the other, and the matches cover
the same stretch of input.

* `Node.span`, `Outcome.span?` — the stretch that a match covers.
* `plainElements_copies`, `plainFirst_copies`, `plainIterations_copies`, `plainClause_copies` — each way
  in which a clause consults others looks at the stretches only.
* **`plainAtFuel_copies`**, `Plain.exists_copy` — two clauses that stand for one expression.
-/

namespace Packrat

/-! ## Stretches -/

/-- The stretch that a node covers: where it starts, and how long it is. -/
def Node.span (node : Node) : Nat × Nat := (node.pos, node.len)

/-- A match that is put together covers a stretch that depends on those of its parts. -/
theorem Node.span_wrap_congr {id other : ClauseId} {nodes nodes' : List Node} {complete complete' : Bool}
    (h : nodes.map span = nodes'.map span) :
    (wrap id nodes complete).span = (wrap other nodes' complete').span := by
  have hpos : nodes.head?.map pos = nodes'.head?.map pos := by
    have hhead := congrArg (fun spans => spans.head?.map Prod.fst) h
    simp only [List.head?_map, Option.map_map] at hhead
    exact hhead
  have hstop : nodes.getLast?.map stop = nodes'.getLast?.map stop := by
    have hlast := congrArg (fun spans => spans.getLast?.map fun bounds => bounds.1 + bounds.2) h
    simp only [List.getLast?_map, Option.map_map] at hlast
    exact hlast
  simp only [wrap, span, pos, len, hpos, hstop]

/-- The stretch that an outcome covers, if it is a match. -/
def Outcome.span? (outcome : Outcome) : Option (Nat × Nat) := outcome.node?.map Node.span

/-- The length of a match is that of its stretch. -/
theorem Outcome.len?_eq (outcome : Outcome) : outcome.len? = outcome.span?.map Prod.snd := by
  cases outcome <;> rfl

/-- The same after the same. -/
theorem map_bind_congr {α β γ δ : Type} {x y : Option α} {k k' : α → Option β} {f : α → γ}
    {h : β → δ} (hxy : x.map f = y.map f)
    (hk : ∀ a b, f a = f b → (k a).map h = (k' b).map h) :
    (x >>= k).map h = (y >>= k').map h := by
  cases x with
  | none =>
    cases y with
    | none => rfl
    | some b => cases hxy
  | some a =>
    cases y with
    | none => cases hxy
    | some b => exact hk a b (Option.some.inj hxy)

/-- Two outcomes that cover the same stretch are two matches that do, or none of them is a match. -/
@[elab_as_elim]
theorem Outcome.span?_cases {motive : Outcome → Outcome → Prop} {a b : Outcome}
    (h : a.span? = b.span?)
    (matched : ∀ node node' : Node, node.span = node'.span → motive (.matched node) (.matched node'))
    (mismatches : motive .mismatch .mismatch) (mismatch_pending : motive .mismatch .pending)
    (pending_mismatch : motive .pending .mismatch) (pendings : motive .pending .pending) :
    motive a b := by
  cases a with
  | matched node =>
    cases b with
    | matched node' => exact matched node node' (Option.some.inj h)
    | mismatch | pending => cases h
  | mismatch =>
    cases b with
    | matched node' => cases h
    | mismatch => exact mismatches
    | pending => exact mismatch_pending
  | pending =>
    cases b with
    | matched node' => cases h
    | mismatch => exact pending_mismatch
    | pending => exact pendings

/-! ## What the rules look at -/

section rules

variable {ctx : Context} {matcher : PlainMatcher}
  (h : ∀ {e : Expr} {id other : ClauseId}, ctx.grammar.Denotes e id → ctx.grammar.Denotes e other →
    ∀ pos, (matcher id pos).map Outcome.span? = (matcher other pos).map Outcome.span?)
include h

/-- The elements of a sequence. -/
theorem plainElements_copies : ∀ {items : List Expr} {ids others : List ClauseId},
    ctx.grammar.DenotesAll items ids → ctx.grammar.DenotesAll items others → ∀ pos,
    (plainElements matcher ids pos).map (Option.map (List.map Node.span)) =
      (plainElements matcher others pos).map (Option.map (List.map Node.span))
  | [], _, _, hids, hothers, _ => by
    rw [Grammar.DenotesAll] at hids hothers
    rw [hids, hothers]
  | item :: items, _, _, hids, hothers, pos => by
    obtain ⟨id, ids, rfl, hid, hids⟩ := hids
    obtain ⟨other, others, rfl, hother, hothers⟩ := hothers
    rw [plainElements, plainElements]
    refine map_bind_congr (h hid hother pos) fun a b hspan => ?_
    refine Outcome.span?_cases hspan (fun node node' hnode => ?_) rfl rfl rfl rfl
    have hlen : node.len = node'.len := congrArg Prod.snd hnode
    simp only [hlen]
    refine map_bind_congr (plainElements_copies hids hothers _) fun rest rest' hrest => ?_
    cases rest <;> cases rest' <;> simp_all

/-- The alternatives of a choice. -/
theorem plainFirst_copies (pos : Nat) : ∀ {items : List Expr} {ids others : List ClauseId},
    ctx.grammar.DenotesAll items ids → ctx.grammar.DenotesAll items others →
    (plainFirst matcher pos ids).map (Option.map Node.span) =
      (plainFirst matcher pos others).map (Option.map Node.span)
  | [], _, _, hids, hothers => by
    rw [Grammar.DenotesAll] at hids hothers
    rw [hids, hothers]
  | item :: items, _, _, hids, hothers => by
    obtain ⟨id, ids, rfl, hid, hids⟩ := hids
    obtain ⟨other, others, rfl, hother, hothers⟩ := hothers
    have hrest := plainFirst_copies pos hids hothers
    rw [plainFirst, plainFirst]
    refine map_bind_congr (h hid hother pos) fun a b hspan => ?_
    refine Outcome.span?_cases hspan (fun node node' hnode => ?_) hrest hrest hrest hrest
    exact congrArg (fun span => some (some span)) hnode

/-- The iterations of an item. -/
theorem plainIterations_copies {item : Expr} {id other : ClauseId} (hid : ctx.grammar.Denotes item id)
    (hother : ctx.grammar.Denotes item other) : ∀ rounds pos : Nat,
    (plainIterations ctx matcher id rounds pos).map (fun result => (result.1.map Node.span, result.2)) =
      (plainIterations ctx matcher other rounds pos).map
        fun result => (result.1.map Node.span, result.2)
  | 0, _ => rfl
  | rounds + 1, pos => by
    rw [plainIterations, plainIterations]
    split
    · rfl
    · refine map_bind_congr (h hid hother pos) fun a b hspan => ?_
      refine Outcome.span?_cases hspan (fun node node' hnode => ?_) rfl rfl rfl rfl
      have hlen : node.len = node'.len := congrArg Prod.snd hnode
      simp only [hlen]
      split
      · rfl
      · refine map_bind_congr (plainIterations_copies hid hother rounds _) fun rest rest' hrest => ?_
        obtain ⟨hnodes, hshort⟩ := Prod.mk.inj hrest
        simp [hnode, hnodes, hshort]

omit h in
/-- A clause that consults no other. -/
theorem plainClause_terminal_copies {clause : Clause} (hterminal : clause.isTerminal = true)
    (id other : ClauseId) (rounds pos : Nat) :
    (plainClause ctx matcher rounds id clause pos).map Outcome.span? =
      (plainClause ctx matcher rounds other clause pos).map Outcome.span? := by
  have hchar : ∀ accepts, (evaluateChar ctx id pos accepts).span? =
      (evaluateChar ctx other pos accepts).span? := by
    intro accepts
    unfold evaluateChar
    split <;> rfl
  cases clause with
  | literal text =>
    simp only [plainClause]
    split <;> rfl
  | char _ | charClass _ _ | anyChar => exact congrArg some (hchar _)
  | empty => rfl
  | _ => cases hterminal

/-- **Any clause.** -/
theorem plainClause_copies {e : Expr} {id other : ClauseId} {clause clause' : Clause}
    (hid : ctx.grammar.Denotes e id) (hother : ctx.grammar.Denotes e other)
    (hclause : ctx.grammar.clause? id = some clause)
    (hclause' : ctx.grammar.clause? other = some clause') (rounds pos : Nat) :
    (plainClause ctx matcher rounds id clause pos).map Outcome.span? =
      (plainClause ctx matcher rounds other clause' pos).map Outcome.span? := by
  have hone : ∀ {node node' : Node}, node.span = node'.span →
      some (Outcome.matched (.wrapOne id node node.isComplete)).span? =
        some (Outcome.matched (.wrapOne other node' node'.isComplete)).span? := fun hnode =>
    congrArg (fun span => some (some span)) (Node.span_wrap_congr (congrArg (fun s => [s]) hnode))
  cases e with
  | literal text | char c | charClass ranges inverted | anyChar | empty =>
    cases hclause.symm.trans hid
    cases hclause'.symm.trans hother
    exact plainClause_terminal_copies rfl id other rounds pos
  | seq items =>
    obtain ⟨ids, hseq, hids⟩ := hid
    obtain ⟨others, hseq', hothers⟩ := hother
    cases hclause.symm.trans hseq
    cases hclause'.symm.trans hseq'
    refine map_bind_congr (plainElements_copies h hids hothers pos) fun row row' hrow => ?_
    match row, row', hrow with
    | none, none, _ | some [], some [], _ => rfl
    | some (node :: nodes), some (node' :: nodes'), hrow =>
      exact congrArg (fun span => some (some span)) (Node.span_wrap_congr (Option.some.inj hrow))
  | choice items =>
    obtain ⟨ids, hchoice, hids⟩ := hid
    obtain ⟨others, hchoice', hothers⟩ := hother
    cases hclause.symm.trans hchoice
    cases hclause'.symm.trans hchoice'
    refine map_bind_congr (plainFirst_copies h pos hids hothers) fun found found' hfound => ?_
    match found, found', hfound with
    | none, none, _ => rfl
    | some node, some node', hnode => exact hone (Option.some.inj hnode)
  | repeated item atLeastOne =>
    obtain ⟨child, hrepeated, hchild⟩ := hid
    obtain ⟨child', hrepeated', hchild'⟩ := hother
    cases hclause.symm.trans hrepeated
    cases hclause'.symm.trans hrepeated'
    refine map_bind_congr (plainIterations_copies h hchild hchild' rounds pos) fun r r' hr => ?_
    obtain ⟨hnodes, -⟩ := Prod.mk.inj hr
    match r, r', hnodes with
    | ([], _), ([], _), _ => cases atLeastOne <;> rfl
    | (node :: nodes, _), (node' :: nodes', _), hnodes =>
      exact congrArg (fun span => some (some span)) (Node.span_wrap_congr hnodes)
  | optional item =>
    obtain ⟨child, hoptional, hchild⟩ := hid
    obtain ⟨child', hoptional', hchild'⟩ := hother
    cases hclause.symm.trans hoptional
    cases hclause'.symm.trans hoptional'
    refine map_bind_congr (h hchild hchild' pos) fun a b hspan => ?_
    exact Outcome.span?_cases hspan (fun _ _ => hone) rfl rfl rfl rfl
  | reference name =>
    obtain ⟨rule, hrule, hreference⟩ := hid
    obtain ⟨rule', hrule', hreference'⟩ := hother
    cases hrule.symm.trans hrule'
    cases hclause.symm.trans hreference
    cases hclause'.symm.trans hreference'
    have hsame : (matcher rule.body pos).map Outcome.span? = _ := rfl
    refine map_bind_congr hsame fun a b hspan => ?_
    exact Outcome.span?_cases hspan (fun _ _ => hone) rfl rfl rfl rfl
  | ahead item | notAhead item =>
    obtain ⟨child, hahead, hchild⟩ := hid
    obtain ⟨child', hahead', hchild'⟩ := hother
    cases hclause.symm.trans hahead
    cases hclause'.symm.trans hahead'
    refine map_bind_congr (h hchild hchild' pos) fun a b hspan => ?_
    exact Outcome.span?_cases hspan (fun _ _ _ => rfl) rfl rfl rfl rfl

end rules

/-! ## Copies -/

/-- A clause that stands for an expression is there. -/
theorem Grammar.Denotes.exists_clause {g : Grammar} {e : Expr} {id : ClauseId}
    (h : g.Denotes e id) : ∃ clause, g.clause? id = some clause := by
  cases e with
  | literal _ | char _ | charClass _ _ | anyChar | empty => exact ⟨_, h⟩
  | reference name =>
    obtain ⟨rule, -, hclause⟩ := h
    exact ⟨_, hclause⟩
  | _ =>
    obtain ⟨_, hclause, -⟩ := h
    exact ⟨_, hclause⟩

/-- **Two clauses that stand for one expression** have outcomes with the same fuel, and these cover the
same stretch. The induction is on the fuel, since a reference leads to a rule that may be larger than the
expression. -/
theorem plainAtFuel_copies (ctx : Context) : ∀ (fuel : Nat) {e : Expr} {id other : ClauseId},
    ctx.grammar.Denotes e id → ctx.grammar.Denotes e other → ∀ pos,
    (plainAtFuel ctx fuel id pos).map Outcome.span? =
      (plainAtFuel ctx fuel other pos).map Outcome.span?
  | 0, _, _, _, _, _, _ => rfl
  | fuel + 1, _, id, other, hid, hother, pos => by
    obtain ⟨clause, hclause⟩ := hid.exists_clause
    obtain ⟨clause', hclause'⟩ := hother.exists_clause
    rw [plainAtFuel, plainAtFuel, hclause, hclause']
    split
    · rfl
    · exact plainClause_copies (plainAtFuel_copies ctx fuel) hid hother hclause hclause' fuel pos

/-- Where a clause has a plain outcome, so has every other that stands for the same expression. -/
theorem Plain.exists_copy {ctx : Context} {e : Expr} {id other : ClauseId}
    (hid : ctx.grammar.Denotes e id) (hother : ctx.grammar.Denotes e other) {pos : Nat}
    {outcome : Outcome} (h : Plain ctx id pos outcome) :
    ∃ outcome', Plain ctx other pos outcome' ∧ outcome'.span? = outcome.span? := by
  obtain ⟨fuel, hfuel⟩ := h
  have hcopies := plainAtFuel_copies ctx fuel hid hother pos
  rw [hfuel] at hcopies
  obtain ⟨outcome', hfuel', hspan⟩ := Option.map_eq_some_iff.1 hcopies.symm
  exact ⟨outcome', ⟨fuel, hfuel'⟩, hspan⟩

end Packrat
