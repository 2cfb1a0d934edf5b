import Packrat.Match.Evaluate
import Packrat.Proofs.Trees

/-!
# Matching without a chart

What a clause matches by the rules of its kind alone: every clause that it consults is evaluated
directly, nothing is stored and nothing is repaired. A clause that comes back to itself at the same
position does so without end; it has no outcome there, and nor has a clause that needs it.

* `plainClause` — one clause, given the outcomes of the clauses that it consults. No outcome where
  one of these has none.
* **`plainAtFuel`** — any clause, nested no deeper than the fuel; `none` where that is not enough.
* **`Plain`** — the outcome of a clause at a position, with whatever fuel it takes.
* `plainAtFuel_mono_success`, `Plain.unique` — more fuel gives the same outcome, so there is at most
  one.
* `Awaits` — a clause that needs the outcome of another for its own.
* `plainAtFuel_ungrown` — no node of a plain match was made by growing a left-recursive one.
-/

namespace Packrat

/-! ## The rules -/

/-- The outcomes of other clauses, where they have one. -/
abbrev PlainMatcher := ClauseId → Nat → Option Outcome

/-- The nodes of the elements of a sequence one after the other, unless one does not match. -/
def plainElements (matcher : PlainMatcher) : List ClauseId → Nat → Option (Option (List Node))
  | [], _ => return some []
  | element :: rest, pos => do
    match ← matcher element pos with
    | .matched node =>
      let others ← plainElements matcher rest (pos + node.len)
      return others.map (node :: ·)
    | _ => return none

/-- The node of the first alternative that matches. -/
def plainFirst (matcher : PlainMatcher) (pos : Nat) : List ClauseId → Option (Option Node)
  | [] => return none
  | alternative :: rest => do
    match ← matcher alternative pos with
    | .matched node => return some node
    | _ => plainFirst matcher pos rest

/-- The nodes of the iterations from `pos` on, and whether they stop before the end of the input
because the item does not match. There is no outcome after so many rounds. -/
def plainIterations (ctx : Context) (matcher : PlainMatcher) (item : ClauseId) :
    Nat → Nat → Option (List Node × Bool)
  | 0, _ => none
  | rounds + 1, pos => do
    if ctx.input.size < pos then return ([], false)
    match ← matcher item pos with
    | .matched node =>
      if node.len = 0 then return ([], false)
      let (nodes, short) ← plainIterations ctx matcher item rounds (pos + node.len)
      return (node :: nodes, short)
    | _ => return ([], pos < ctx.input.size)

/-- **The rule of each kind of clause.** -/
def plainClause (ctx : Context) (matcher : PlainMatcher) (rounds : Nat) (id : ClauseId)
    (clause : Clause) (pos : Nat) : Option Outcome :=
  match clause with
  | .literal text =>
    return if startsAt ctx.input text pos then .matched (.terminal id pos text.length)
      else .mismatch
  | .char c => return evaluateChar ctx id pos (· == c)
  | .charClass ranges inverted => return evaluateChar ctx id pos (classAccepts ranges inverted)
  | .anyChar => return evaluateChar ctx id pos fun _ => true
  | .empty => return .matched (.terminal id pos 0)
  | .seq elements => do
    match ← plainElements matcher elements pos with
    | none => return .mismatch
    | some [] => return .matched (.emptyAt id pos true)
    | some nodes => return .matched (.wrap id nodes (nodes.all Node.isComplete))
  | .choice alternatives => do
    match ← plainFirst matcher pos alternatives with
    | some node => return .matched (.wrapOne id node node.isComplete)
    | none => return .mismatch
  | .repeated item atLeastOne => do
    let (nodes, short) ← plainIterations ctx matcher item rounds pos
    match nodes with
    | [] => return if atLeastOne then .mismatch else .matched (.emptyAt id pos !short)
    | nodes => return .matched (.wrap id nodes (!short && nodes.all Node.isComplete))
  | .optional item => do
    match ← matcher item pos with
    | .matched node => return .matched (.wrapOne id node node.isComplete)
    | _ => return .matched (.emptyAt id pos !(pos < ctx.input.size))
  | .reference _ target => do
    match ← matcher target pos with
    | .matched node => return .matched (.wrapOne id node node.isComplete)
    | failed => return failed
  | .ahead item => do
    if (← matcher item pos).isMatch then return .matched (.terminal id pos 0)
    else return .mismatch
  | .notAhead item => do
    if (← matcher item pos).isMatch then return .mismatch
    else return .matched (.terminal id pos 0)

/-- **The outcome of a clause at a position**, if the clauses are nested no deeper than the fuel.
Nothing matches beyond the end of the input. -/
def plainAtFuel (ctx : Context) : Nat → PlainMatcher
  | 0, _, _ => none
  | fuel + 1, id, pos => do
    if ctx.input.size < pos then return .mismatch
    plainClause ctx (plainAtFuel ctx fuel) fuel id (← ctx.grammar.clause? id) pos

/-- Whether a clause has an outcome at a position by the rules alone. -/
def Plain (ctx : Context) (id : ClauseId) (pos : Nat) (outcome : Outcome) : Prop :=
  ∃ fuel, plainAtFuel ctx fuel id pos = some outcome

/-- Whether a result, if there is one, satisfies a condition. -/
def Yields {α : Type} (x : Option α) (P : α → Prop) : Prop := ∀ a, x = some a → P a

/-- A result that is given. -/
theorem Yields.pure {α : Type} {a : α} {P : α → Prop} (h : P a) :
    Yields (Pure.pure a : Option α) P := by
  intro b hb
  cases hb
  exact h

/-- One step after another. -/
theorem Yields.bind {α β : Type} {x : Option α} {f : α → Option β} {P : α → Prop} {Q : β → Prop}
    (hx : Yields x P) (hf : ∀ a, P a → Yields (f a) Q) : Yields (x >>= f) Q := by
  intro b hb
  obtain ⟨a, ha, hb⟩ := Option.bind_eq_some_iff.1 hb
  exact hf a (hx a ha) b hb

/-! ## More fuel -/

/-- Whether the first result, if there is one, is also the second. -/
def Within {α : Type} (x y : Option α) : Prop := Yields x fun a => y = some a

namespace Within

variable {α β : Type}

/-- A result is itself. -/
theorem refl (x : Option α) : Within x x := fun _ h => h

/-- No result is within any. -/
theorem none {x : Option α} : Within Option.none x := nofun

/-- One step after another. -/
theorem bind {x y : Option α} {f g : α → Option β} (hx : Within x y)
    (hf : ∀ a, Within (f a) (g a)) : Within (x >>= f) (y >>= g) := by
  refine Yields.bind hx fun a ha b hb => ?_
  exact Option.bind_eq_some_iff.2 ⟨a, ha, hf a b hb⟩

end Within

section monotone

variable {ctx : Context} {matcher matcher' : PlainMatcher}
  (h : ∀ id pos, Within (matcher id pos) (matcher' id pos))
include h

/-- More outcomes for the elements of a sequence. -/
theorem plainElements_within : ∀ (elements : List ClauseId) (pos : Nat),
    Within (plainElements matcher elements pos) (plainElements matcher' elements pos)
  | [], _ => .refl _
  | element :: rest, pos => by
    rw [plainElements, plainElements]
    refine .bind (h element pos) fun outcome => ?_
    split
    · exact .bind (plainElements_within rest _) fun _ => .refl _
    · exact .refl _

/-- More outcomes for the alternatives of a choice. -/
theorem plainFirst_within (pos : Nat) : ∀ alternatives : List ClauseId,
    Within (plainFirst matcher pos alternatives) (plainFirst matcher' pos alternatives)
  | [] => .refl _
  | alternative :: rest => by
    rw [plainFirst, plainFirst]
    refine .bind (h alternative pos) fun outcome => ?_
    split
    · exact .refl _
    · exact plainFirst_within pos rest

/-- More outcomes for the item of a repetition, and more rounds. -/
theorem plainIterations_within (item : ClauseId) : ∀ {rounds rounds' : Nat} (pos : Nat),
    rounds ≤ rounds' → Within (plainIterations ctx matcher item rounds pos)
      (plainIterations ctx matcher' item rounds' pos)
  | 0, _, _, _ => .none
  | rounds + 1, rounds', pos, hle => by
    obtain ⟨more, rfl⟩ : ∃ k, rounds' = k + 1 := ⟨rounds' - 1, by omega⟩
    have hrest := fun place => plainIterations_within item place (Nat.le_of_succ_le_succ hle)
    rw [plainIterations, plainIterations]
    split
    · exact .refl _
    · refine .bind (h item pos) fun outcome => ?_
      split
      · split
        · exact .refl _
        · exact .bind (hrest _) fun _ => .refl _
      · exact .refl _

/-- More outcomes for the clauses that a clause consults. -/
theorem plainClause_within {rounds rounds' : Nat} (hle : rounds ≤ rounds') (id : ClauseId)
    (clause : Clause) (pos : Nat) :
    Within (plainClause ctx matcher rounds id clause pos)
      (plainClause ctx matcher' rounds' id clause pos) := by
  cases clause with
  | seq elements => exact .bind (plainElements_within h elements pos) fun _ => .refl _
  | choice alternatives => exact .bind (plainFirst_within h pos alternatives) fun _ => .refl _
  | repeated item atLeastOne =>
    exact .bind (plainIterations_within h item pos hle) fun _ => .refl _
  | optional item | reference name item | ahead item | notAhead item =>
    exact .bind (h item pos) fun _ => .refl _
  | _ => exact .refl _

end monotone

/-- More fuel gives the same outcome. -/
theorem plainAtFuel_mono_success (ctx : Context) : ∀ {fuel fuel' : Nat}, fuel ≤ fuel' →
    ∀ id pos, Within (plainAtFuel ctx fuel id pos) (plainAtFuel ctx fuel' id pos)
  | 0, _, _ => fun _ _ => .none
  | fuel + 1, fuel', hle => by
    obtain ⟨more, rfl⟩ : ∃ k, fuel' = k + 1 := ⟨fuel' - 1, by omega⟩
    have hle' := Nat.le_of_succ_le_succ hle
    intro id pos
    rw [plainAtFuel, plainAtFuel]
    split
    · exact .refl _
    · exact .bind (.refl _) fun clause =>
        plainClause_within (plainAtFuel_mono_success ctx hle') hle' id clause pos

/-- What has no outcome has none with less fuel. -/
theorem plainAtFuel_eq_none {ctx : Context} {fuel fuel' : Nat} (hle : fuel ≤ fuel') {id : ClauseId}
    {pos : Nat} (h : plainAtFuel ctx fuel' id pos = none) : plainAtFuel ctx fuel id pos = none := by
  cases hless : plainAtFuel ctx fuel id pos with
  | none => rfl
  | some outcome =>
    rw [plainAtFuel_mono_success ctx hle id pos outcome hless] at h
    cases h

/-- There is at most one outcome. -/
theorem Plain.unique {ctx : Context} {id : ClauseId} {pos : Nat} {outcome outcome' : Outcome}
    (h : Plain ctx id pos outcome) (h' : Plain ctx id pos outcome') : outcome = outcome' := by
  obtain ⟨fuel, hfuel⟩ := h
  obtain ⟨fuel', hfuel'⟩ := h'
  have hmax := plainAtFuel_mono_success ctx (Nat.le_max_left fuel fuel') id pos outcome hfuel
  have hmax' := plainAtFuel_mono_success ctx (Nat.le_max_right fuel fuel') id pos outcome' hfuel'
  exact Option.some.inj (hmax.symm.trans hmax')

/-- The least fuel that an outcome takes. -/
theorem Plain.exists_least {ctx : Context} {id : ClauseId} {pos : Nat} {outcome : Outcome}
    (h : Plain ctx id pos outcome) :
    ∃ fuel, plainAtFuel ctx fuel id pos = none ∧ plainAtFuel ctx (fuel + 1) id pos = some outcome := by
  obtain ⟨fuel, hfuel⟩ := h
  induction fuel with
  | zero => cases hfuel
  | succ fuel ih =>
    cases hless : plainAtFuel ctx fuel id pos with
    | none => exact ⟨fuel, hless, hfuel⟩
    | some earlier =>
      obtain rfl : earlier = outcome := Plain.unique ⟨fuel, hless⟩ ⟨fuel + 1, hfuel⟩
      exact ih hless

/-- **Whether one clause waits for another**: by the rules alone, the first has no outcome at its place
unless the second has one, which is nested less deep. So it is with a clause that consults another. -/
def Awaits (ctx : Context) (id : ClauseId) (pos : Nat) (other : ClauseId) (place : Nat) : Prop :=
  ∀ fuel, plainAtFuel ctx fuel other place = none → plainAtFuel ctx (fuel + 1) id pos = none

/-- What a clause with an outcome waits for has one too. -/
theorem Awaits.exists_plain {ctx : Context} {id other : ClauseId} {pos place : Nat} {outcome : Outcome}
    (h : Awaits ctx id pos other place) (hplain : Plain ctx id pos outcome) :
    ∃ outcome', Plain ctx other place outcome' := by
  obtain ⟨fuel, -, hfuel⟩ := hplain.exists_least
  cases hother : plainAtFuel ctx fuel other place with
  | none =>
    rw [h fuel hother] at hfuel
    cases hfuel
  | some outcome' => exact ⟨outcome', fuel, hother⟩

/-! ## No growth -/

/-- Whether no node of a tree was made while a left-recursive match was being grown. -/
def Node.Ungrown (node : Node) : Prop := ∀ other ∈ node.nodes, other.isGrown = false

/-- A match without children. -/
theorem Node.ungrown_leaf {id : ClauseId} {pos len : Nat} {complete : Bool} :
    Node.Ungrown (.clause ⟨id, pos, len, complete, false, 0⟩ []) := by
  intro other hother
  simp only [nodes, nodesOf, List.mem_singleton] at hother
  rw [hother]
  rfl

/-- A match with children. -/
theorem Node.ungrown_wrap {id : ClauseId} {children : List Node} {complete : Bool}
    (h : ∀ child ∈ children, child.Ungrown) : (Node.wrap id children complete).Ungrown := by
  intro other hother
  rw [wrap, nodes] at hother
  rcases List.mem_cons.1 hother with rfl | hother
  · have hroots : ∀ child ∈ children, ¬child.isGrown = true := fun child hchild =>
      Bool.eq_false_iff.1 (h child hchild child child.self_mem_nodes)
    exact List.any_eq_false.2 hroots
  · obtain ⟨child, hchild, hother⟩ := mem_nodesOf.1 hother
    exact h child hchild other hother

/-- A match around one other. -/
theorem Node.ungrown_wrapOne {id : ClauseId} {child : Node} {complete : Bool} (h : child.Ungrown) :
    (Node.wrapOne id child complete).Ungrown := by
  refine ungrown_wrap fun other hother => ?_
  rw [List.mem_singleton.1 hother]
  exact h

/-- Whether no node of a match was made while a left-recursive one was being grown. -/
def Outcome.Ungrown (outcome : Outcome) : Prop := ∀ node, outcome = .matched node → node.Ungrown

/-- A match without growth. -/
theorem Outcome.ungrown_matched {node : Node} (h : node.Ungrown) :
    Outcome.Ungrown (.matched node) := by
  intro other hother
  cases hother
  exact h

/-- One character. -/
theorem evaluateChar_ungrown (ctx : Context) (id : ClauseId) (pos : Nat) (accepts : Char → Bool) :
    (evaluateChar ctx id pos accepts).Ungrown := by
  unfold evaluateChar
  split
  · exact Outcome.ungrown_matched Node.ungrown_leaf
  · exact nofun

section ungrown

variable {ctx : Context} {matcher : PlainMatcher}
  (h : ∀ id pos, Yields (matcher id pos) Outcome.Ungrown)
include h

/-- The elements of a sequence. -/
theorem plainElements_ungrown : ∀ (elements : List ClauseId) (pos : Nat),
    Yields (plainElements matcher elements pos) fun result =>
      ∀ nodes, result = some nodes → ∀ node ∈ nodes, node.Ungrown
  | [], _ => .pure fun nodes hnodes => by
    cases hnodes
    exact nofun
  | element :: rest, pos => by
    rw [plainElements]
    refine .bind (h element pos) fun outcome houtcome => ?_
    split
    · rename_i node
      refine .bind (plainElements_ungrown rest _) fun others hothers => .pure ?_
      intro nodes hnodes
      obtain ⟨tail, rfl, rfl⟩ := Option.map_eq_some_iff.1 hnodes
      intro other hother
      rcases List.mem_cons.1 hother with rfl | hother
      · exact houtcome other rfl
      · exact hothers tail rfl other hother
    · exact .pure nofun

/-- The alternatives of a choice. -/
theorem plainFirst_ungrown (pos : Nat) : ∀ alternatives : List ClauseId,
    Yields (plainFirst matcher pos alternatives) fun result =>
      ∀ node, result = some node → node.Ungrown
  | [] => .pure nofun
  | alternative :: rest => by
    rw [plainFirst]
    refine .bind (h alternative pos) fun outcome houtcome => ?_
    split
    · rename_i node
      refine .pure ?_
      intro other hother
      cases hother
      exact houtcome node rfl
    · exact plainFirst_ungrown pos rest

/-- The iterations of a repetition. -/
theorem plainIterations_ungrown (item : ClauseId) : ∀ rounds pos : Nat,
    Yields (plainIterations ctx matcher item rounds pos) fun result =>
      ∀ node ∈ result.1, node.Ungrown
  | 0, _ => nofun
  | rounds + 1, pos => by
    rw [plainIterations]
    split
    · exact .pure nofun
    · refine .bind (h item pos) fun outcome houtcome => ?_
      split
      · rename_i node
        split
        · exact .pure nofun
        · refine .bind (plainIterations_ungrown item rounds _) fun result hresult => .pure ?_
          intro other hother
          rcases List.mem_cons.1 hother with rfl | hother
          · exact houtcome other rfl
          · exact hresult other hother
      · exact .pure nofun

/-- One clause. -/
theorem plainClause_ungrown (rounds : Nat) (id : ClauseId) (clause : Clause) (pos : Nat) :
    Yields (plainClause ctx matcher rounds id clause pos) Outcome.Ungrown := by
  cases clause with
  | literal text =>
    refine .pure ?_
    split
    · exact Outcome.ungrown_matched Node.ungrown_leaf
    · exact nofun
  | char c => exact .pure (evaluateChar_ungrown ctx id pos _)
  | charClass ranges inverted => exact .pure (evaluateChar_ungrown ctx id pos _)
  | anyChar => exact .pure (evaluateChar_ungrown ctx id pos _)
  | empty => exact .pure (Outcome.ungrown_matched Node.ungrown_leaf)
  | seq elements =>
    refine .bind (plainElements_ungrown h elements pos) fun result hresult => ?_
    split
    · exact .pure nofun
    · exact .pure (Outcome.ungrown_matched Node.ungrown_leaf)
    · exact .pure (Outcome.ungrown_matched (Node.ungrown_wrap (hresult _ rfl)))
  | choice alternatives =>
    refine .bind (plainFirst_ungrown h pos alternatives) fun result hresult => ?_
    split
    · exact .pure (Outcome.ungrown_matched (Node.ungrown_wrapOne (hresult _ rfl)))
    · exact .pure nofun
  | repeated item atLeastOne =>
    refine .bind (plainIterations_ungrown h item rounds pos) fun result hresult => ?_
    obtain ⟨nodes, short⟩ := result
    cases nodes with
    | nil =>
      refine .pure ?_
      split
      · exact nofun
      · exact Outcome.ungrown_matched Node.ungrown_leaf
    | cons first rest => exact .pure (Outcome.ungrown_matched (Node.ungrown_wrap hresult))
  | optional item =>
    refine .bind (h item pos) fun outcome houtcome => ?_
    split
    · exact .pure (Outcome.ungrown_matched (Node.ungrown_wrapOne (houtcome _ rfl)))
    · exact .pure (Outcome.ungrown_matched Node.ungrown_leaf)
  | reference name target =>
    refine .bind (h target pos) fun outcome houtcome => ?_
    split
    · exact .pure (Outcome.ungrown_matched (Node.ungrown_wrapOne (houtcome _ rfl)))
    · exact .pure houtcome
  | ahead item =>
    refine .bind (h item pos) fun outcome _ => ?_
    split
    · exact .pure (Outcome.ungrown_matched Node.ungrown_leaf)
    · exact .pure nofun
  | notAhead item =>
    refine .bind (h item pos) fun outcome _ => ?_
    split
    · exact .pure nofun
    · exact .pure (Outcome.ungrown_matched Node.ungrown_leaf)

end ungrown

/-- No node of a plain match was made by growing a left-recursive one. -/
theorem plainAtFuel_ungrown (ctx : Context) : ∀ (fuel : Nat) (id : ClauseId) (pos : Nat),
    Yields (plainAtFuel ctx fuel id pos) Outcome.Ungrown
  | 0, _, _ => nofun
  | fuel + 1, id, pos => by
    rw [plainAtFuel]
    split
    · exact .pure nofun
    · intro outcome houtcome
      obtain ⟨clause, -, houtcome⟩ := Option.bind_eq_some_iff.1 houtcome
      exact plainClause_ungrown (plainAtFuel_ungrown ctx fuel) fuel id clause pos outcome houtcome

end Packrat
