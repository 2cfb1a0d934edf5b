import Mathlib.Data.Finset.Card
import Mathlib.Order.Interval.Finset.Nat
import Packrat.Grammar.Build

/-!
# What a built grammar satisfies

* **`Grammar.WellFormed`** — every index in the table of clauses is in range, and every chain of
  bare references ends.
* `Clause.parts` — the clauses that a clause is made of.
* **`Compositional`** — the properties of lowered clauses that follow from those of their parts.
* `build_wellFormed` — a grammar that was built is well formed.
* `endsInBody_size` — a chain of references that ends at all ends within as many steps as there are
  clauses: it passes each reference at most once. This is what bounds the number of references
  between two evaluations of other clauses.

The chains of the *rules* are checked when the grammar is built. Those of the remaining references
follow, since the target of a reference is the body of a rule.
-/

namespace Packrat

/-- What it takes for one computation after another to succeed. -/
theorem except_bind_eq_ok {ε α β : Type} {x : Except ε α} {f : α → Except ε β} {b : β} :
    x >>= f = .ok b ↔ ∃ a, x = .ok a ∧ f a = .ok b := by
  cases x with
  | error e => exact ⟨nofun, fun ⟨_, h, _⟩ => nomatch h⟩
  | ok a => exact ⟨fun h => ⟨a, rfl, h⟩, fun ⟨_, h, hf⟩ => by cases h; exact hf⟩

/-- A list of computations succeeds if all of them do. -/
theorem forall₂_of_mapM_eq_ok {ε α β : Type} {f : α → Except ε β} :
    ∀ {as : List α} {bs : List β}, as.mapM f = .ok bs → List.Forall₂ (fun a b => f a = .ok b) as bs
  | [], bs, h => by
    rw [List.mapM_nil] at h
    cases h
    exact .nil
  | a :: as, bs, h => by
    rw [List.mapM_cons, except_bind_eq_ok] at h
    obtain ⟨b, hb, h⟩ := h
    rw [except_bind_eq_ok] at h
    obtain ⟨rest, hrest, h⟩ := h
    cases h
    exact .cons hb (forall₂_of_mapM_eq_ok hrest)

/-- If one or the other holds of each element, then the other of all, or the one of the first of which
the other need not hold. -/
theorem exists_first {α : Type} {one other : α → Prop} : ∀ {items : List α},
    (∀ a ∈ items, one a ∨ other a) → (∀ a ∈ items, other a) ∨
      ∃ before a after, items = before ++ a :: after ∧ (∀ b ∈ before, other b) ∧ one a
  | [], _ => .inl nofun
  | a :: items, h => by
    obtain ⟨hfirst, hitems⟩ := List.forall_mem_cons.1 h
    rcases hfirst with hone | hother
    · exact .inr ⟨[], a, items, rfl, nofun, hone⟩
    · rcases exists_first hitems with hall | ⟨before, b, after, rfl, hbefore, hb⟩
      · exact .inl (List.forall_mem_cons.2 ⟨hother, hall⟩)
      · exact .inr ⟨a :: before, b, after, rfl, List.forall_mem_cons.2 ⟨hother, hbefore⟩, hb⟩

/-! ## Well-formed grammars -/

/-- A grammar whose indices are in range and whose chains of references end. -/
structure Grammar.WellFormed (g : Grammar) : Prop where
  /-- The clauses that a clause consults exist. -/
  children_lt : ∀ {id clause}, g.clause? id = some clause →
    ∀ child ∈ clause.children, child < g.clauses.size
  /-- The bodies of the rules exist. -/
  body_lt : ∀ rule ∈ g.rules, rule.body < g.clauses.size
  /-- The chain of references that starts at a clause ends. -/
  chain_ends : ∀ id < g.clauses.size, endsInBody g.clauses (g.clauses.size + 1) id = true

/-! ## Lowering is compositional -/

/-- The clauses that a clause is made of: those that it consults, except that a reference consults the
body of a rule, which is not a part of it. -/
def Clause.parts (clause : Clause) : List ClauseId :=
  if clause.isReference then [] else clause.children

/-- A property of clauses that stand from an index on, and of the indices of some of them, that carries
over to all that lowering puts together: a clause above its parts, and clauses after others. -/
structure Compositional (P : Nat → List Clause → List ClauseId → Prop) : Prop where
  /-- No clauses. -/
  nil : ∀ base, P base [] []
  /-- A clause after its parts. -/
  above : ∀ {base clauses ids clause}, P base clauses ids → Clause.parts clause = ids →
    P base (clauses ++ [clause]) [base + clauses.length]
  /-- Clauses after others. -/
  append : ∀ {base clauses ids others otherIds}, P base clauses ids →
    P (base + clauses.length) others otherIds → P base (clauses ++ others) (ids ++ otherIds)

namespace Compositional

variable {P : Nat → List Clause → List ClauseId → Prop}

mutual

/-- Lowering an expression. -/
theorem lower (hP : Compositional P) {rule : String} : (e : Expr) → ∀ {base : Nat}
    {clauses : List Clause} {id : ClauseId}, Packrat.lower rule base e = .ok (clauses, id) →
    P base clauses [id]
  | .literal _, base, _, _, h | .char _, base, _, _, h | .anyChar, base, _, _, h
  | .empty, base, _, _, h | .reference _, base, _, _, h => by
    cases h
    exact hP.above (hP.nil base) rfl
  | .charClass ranges inverted, base, _, _, h => by
    rw [Packrat.lower] at h
    split at h
    · cases h
    · cases h
      exact hP.above (hP.nil base) rfl
  | .seq items, _, _, _, h | .choice items, _, _, _, h => by
    rw [Packrat.lower] at h
    split at h
    · cases h
    · obtain ⟨⟨clauses, ids⟩, hitems, h⟩ := except_bind_eq_ok.1 h
      cases h
      exact hP.above (hP.lowerItems items hitems) rfl
  | .repeated item _, _, _, _, h | .optional item, _, _, _, h | .ahead item, _, _, _, h
  | .notAhead item, _, _, _, h => by
    rw [Packrat.lower] at h
    obtain ⟨⟨clauses, id⟩, hitem, h⟩ := except_bind_eq_ok.1 h
    cases h
    exact hP.above (hP.lower item hitem) rfl

/-- Lowering several expressions. -/
theorem lowerItems (hP : Compositional P) {rule : String} : (items : List Expr) → ∀ {base : Nat}
    {clauses : List Clause} {ids : List ClauseId},
    Packrat.lowerItems rule base items = .ok (clauses, ids) → P base clauses ids
  | [], base, _, _, h => by
    cases h
    exact hP.nil base
  | item :: rest, _, _, _, h => by
    rw [Packrat.lowerItems] at h
    obtain ⟨⟨first, id⟩, hitem, h⟩ := except_bind_eq_ok.1 h
    obtain ⟨⟨others, ids⟩, hrest, h⟩ := except_bind_eq_ok.1 h
    cases h
    exact hP.append (hP.lower item hitem) (hP.lowerItems rest hrest)

end

/-- Lowering all definitions. -/
theorem lowerAll (hP : Compositional P) : (definitions : List Definition) → ∀ {clauses : List Clause}
    {rules : List Rule} {clauses' : List Clause} {rules' : List Rule},
    P 0 clauses (rules.map (·.body)) →
    Packrat.lowerAll clauses rules definitions = .ok (clauses', rules') →
    P 0 clauses' (rules'.map (·.body))
  | [], _, _, _, _, h, heq => by
    cases heq
    exact h
  | definition :: rest, clauses, rules, _, _, h, heq => by
    rw [Packrat.lowerAll] at heq
    obtain ⟨_, _, heq⟩ := except_bind_eq_ok.1 heq
    obtain ⟨⟨more, body⟩, hlower, heq⟩ := except_bind_eq_ok.1 heq
    refine hP.lowerAll rest ?_ heq
    rw [List.map_append]
    exact hP.append h (by simpa using hP.lower definition.body hlower)

end Compositional

/-! ## Lowering stays in range -/

/-- Whether the clauses that a clause consults lie below a bound; targets of references do not
count. -/
def Clause.Below (bound : Nat) (clause : Clause) : Prop :=
  clause.isReference = false → ∀ child ∈ clause.children, child < bound

/-- What lowering gives: clauses that only consult each other or earlier ones, and the indices
among them of the expressions that were lowered. -/
structure Lowered (base : Nat) (clauses : List Clause) (ids : List ClauseId) : Prop where
  /-- The indices are in range. -/
  ids_lt : ∀ id ∈ ids, id < base + clauses.length
  /-- The clauses are in range. -/
  below : ∀ clause ∈ clauses, clause.Below (base + clauses.length)

/-- A larger bound. -/
theorem Clause.Below.mono {clause : Clause} {bound larger : Nat} (h : clause.Below bound)
    (hle : bound ≤ larger) : clause.Below larger :=
  fun href child hc => Nat.lt_of_lt_of_le (h href child hc) hle

namespace Lowered

variable {base : Nat} {clauses others : List Clause} {ids otherIds : List ClauseId}

/-- A clause above those that were lowered before it. -/
theorem above (h : Lowered base clauses ids) {clause : Clause} (hparts : clause.parts = ids) :
    Lowered base (clauses ++ [clause]) [base + clauses.length] where
  ids_lt := by simp
  below := by
    intro c hmem
    have hlen : base + clauses.length ≤ base + (clauses ++ [clause]).length := by simp
    rcases List.mem_append.1 hmem with hmem | hmem
    · exact (h.below c hmem).mono hlen
    · rw [List.mem_singleton] at hmem
      subst hmem
      intro href child hchild
      have hpart : child ∈ ids := by rwa [← hparts, Clause.parts, href]
      exact Nat.lt_of_lt_of_le (h.ids_lt child hpart) hlen

/-- One lowering after another. -/
theorem append (h : Lowered base clauses ids)
    (h' : Lowered (base + clauses.length) others otherIds) :
    Lowered base (clauses ++ others) (ids ++ otherIds) where
  ids_lt := by
    intro id hmem
    rw [List.length_append]
    rcases List.mem_append.1 hmem with hmem | hmem
    · exact Nat.lt_of_lt_of_le (h.ids_lt id hmem) (by omega)
    · exact Nat.lt_of_lt_of_le (h'.ids_lt id hmem) (by omega)
  below := by
    intro c hmem
    rw [List.length_append]
    rcases List.mem_append.1 hmem with hmem | hmem
    · exact (h.below c hmem).mono (by omega)
    · exact (h'.below c hmem).mono (by omega)

end Lowered

/-- **Lowering stays in range.** -/
theorem lowered_compositional : Compositional Lowered where
  nil _ := ⟨by simp, by simp⟩
  above h hparts := h.above hparts
  append h h' := h.append h'

/-! ## Chains of references -/

/-- More steps do not hurt a chain that ends. -/
theorem endsInBody_mono {clauses : Array Clause} : ∀ {fuel larger : Nat} {id : ClauseId},
    fuel ≤ larger → endsInBody clauses fuel id = true → endsInBody clauses larger id = true
  | 0, _, _, _, h => by simp [endsInBody] at h
  | fuel + 1, larger, id, hle, h => by
    obtain ⟨larger, rfl⟩ : ∃ k, larger = k + 1 := ⟨larger - 1, by omega⟩
    rw [endsInBody] at h ⊢
    split
    · rename_i hid
      rw [hid] at h
      exact endsInBody_mono (by omega) h
    · rfl

/-- Whether the chain that starts at a clause passes exactly so many references. -/
def Passes (clauses : Array Clause) (count : Nat) (id : ClauseId) : Prop :=
  endsInBody clauses (count + 1) id = true ∧ endsInBody clauses count id = false

/-- A chain that ends passes some number of references. -/
theorem exists_passes {clauses : Array Clause} {id : ClauseId} : ∀ {fuel : Nat},
    endsInBody clauses fuel id = true → ∃ count, Passes clauses count id
  | 0, h => by simp [endsInBody] at h
  | fuel + 1, h => by
    cases hf : endsInBody clauses fuel id with
    | false => exact ⟨fuel, h, hf⟩
    | true => exact exists_passes hf

/-- A chain that passes a reference starts at one. -/
theorem Passes.step {clauses : Array Clause} {count : Nat} {id : ClauseId}
    (h : Passes clauses (count + 1) id) :
    id < clauses.size ∧ ∃ target, Passes clauses count target := by
  obtain ⟨hends, hnot⟩ := h
  rw [endsInBody] at hends hnot
  split at hnot
  · rename_i name target hid
    rw [hid] at hends
    exact ⟨(Array.getElem?_eq_some_iff.1 hid).1, target, hends, hnot⟩
  · cases hnot

/-- Along a chain the number of references ahead takes every smaller value. -/
theorem Passes.exists_of_le {clauses : Array Clause} {count : Nat} {id : ClauseId}
    (h : Passes clauses count id) : ∀ fewer ≤ count, ∃ other, Passes clauses fewer other := by
  induction count generalizing id with
  | zero =>
    intro fewer hle
    obtain rfl : fewer = 0 := by omega
    exact ⟨id, h⟩
  | succ count ih =>
    intro fewer hle
    rcases Nat.lt_or_ge count fewer with hlt | hge
    · obtain rfl : fewer = count + 1 := by omega
      exact ⟨id, h⟩
    · obtain ⟨-, target, ht⟩ := h.step
      exact ih ht fewer hge

/-- The number of references ahead is determined by the clause. -/
theorem Passes.unique {clauses : Array Clause} {count count' : Nat} {id : ClauseId}
    (h : Passes clauses count id) (h' : Passes clauses count' id) : count = count' := by
  rcases Nat.lt_trichotomy count count' with hlt | heq | hgt
  · exact absurd (endsInBody_mono hlt h.1) (by simp [h'.2])
  · exact heq
  · exact absurd (endsInBody_mono hgt h'.1) (by simp [h.2])

/-- A chain that ends passes at most as many references as there are clauses: those it passes
differ in the number of references still ahead. -/
theorem Passes.le_size {clauses : Array Clause} {count : Nat} {id : ClauseId}
    (h : Passes clauses count id) : count ≤ clauses.size := by
  have hall : ∀ fewer ∈ Finset.Icc 1 count, ∃ other, Passes clauses fewer other :=
    fun fewer hf => h.exists_of_le fewer (Finset.mem_Icc.1 hf).2
  choose! start hstart using hall
  have hmaps : ∀ fewer ∈ Finset.Icc 1 count, start fewer ∈ Finset.range clauses.size := by
    intro fewer hf
    obtain ⟨fewer, rfl⟩ : ∃ k, fewer = k + 1 := ⟨fewer - 1, by have := Finset.mem_Icc.1 hf; omega⟩
    exact Finset.mem_range.2 (hstart _ hf).step.1
  have hinj : Set.InjOn start (Finset.Icc 1 count) := by
    intro a ha b hb hab
    have hpa := hstart a ha
    rw [hab] at hpa
    exact hpa.unique (hstart b hb)
  have hcard := Finset.card_le_card_of_injOn start hmaps hinj
  simpa using hcard

/-- A chain that ends does so within as many steps as there are clauses. -/
theorem endsInBody_size {clauses : Array Clause} {fuel : Nat} {id : ClauseId}
    (h : endsInBody clauses fuel id = true) :
    endsInBody clauses (clauses.size + 1) id = true := by
  obtain ⟨count, hcount⟩ := exists_passes h
  have hle := hcount.le_size
  exact endsInBody_mono (by omega) hcount.1

/-! ## Building -/

/-- A reference gets the body of a rule as its target; other clauses stay as they are. -/
theorem resolve_eq_ok {rules : List Rule} {clause clause' : Clause}
    (h : resolve rules clause = .ok clause') :
    (∃ name, ∃ rule ∈ rules, clause' = .reference name rule.body) ∨
      (clause'.isReference = false ∧ clause' = clause) := by
  unfold resolve at h
  split at h
  · rename_i name target
    split at h
    · rename_i rule hfind
      cases h
      exact .inl ⟨name, rule, List.mem_of_find?_eq_some hfind, rfl⟩
    · cases h
  · rename_i hne
    cases h
    refine .inr ⟨?_, rfl⟩
    cases clause with
    | reference name target => exact absurd rfl (hne name target)
    | _ => rfl

/-- The check for cycles looks at all rules. -/
theorem checkCycles_eq_ok {clauses : Array Clause} : ∀ {rules : List Rule},
    checkCycles clauses rules = .ok () →
    ∀ rule ∈ rules, endsInBody clauses (clauses.size + 1) rule.body = true
  | [], _, _, hr => absurd hr List.not_mem_nil
  | first :: rest, h, rule, hr => by
    rw [checkCycles] at h
    split at h
    · rename_i hfirst
      rcases List.mem_cons.1 hr with rfl | hr
      · exact hfirst
      · exact checkCycles_eq_ok h rule hr
    · cases h

/-- The stages that a list of definitions passes when it is built. -/
theorem build_eq_ok {definitions : List Definition} {g : Grammar}
    (h : Grammar.build definitions = .ok g) :
    ∃ lowered, lowerAll [] [] definitions = .ok (lowered, g.rules) ∧
      lowered.mapM (resolve g.rules) = .ok g.clauses.toList ∧
      checkCycles g.clauses g.rules = .ok () := by
  unfold Grammar.build at h
  split at h
  · cases h
  · obtain ⟨⟨lowered, rules⟩, hlower, h⟩ := except_bind_eq_ok.1 h
    obtain ⟨resolved, hresolve, h⟩ := except_bind_eq_ok.1 h
    obtain ⟨⟨⟩, hcycles, h⟩ := except_bind_eq_ok.1 h
    cases h
    exact ⟨lowered, hlower, hresolve, hcycles⟩

/-- **A built grammar is well formed.** -/
theorem build_wellFormed {definitions : List Definition} {g : Grammar}
    (h : Grammar.build definitions = .ok g) : g.WellFormed := by
  obtain ⟨lowered, hlower, hresolve, hcycles⟩ := build_eq_ok h
  have hlow : Lowered 0 lowered (g.rules.map (·.body)) :=
    lowered_compositional.lowerAll definitions (lowered_compositional.nil 0) hlower
  have hpairs := forall₂_of_mapM_eq_ok hresolve
  have hlen : lowered.length = g.clauses.size := by
    rw [hpairs.length_eq, Array.length_toList]
  have hbody : ∀ rule ∈ g.rules, rule.body < g.clauses.size := by
    intro rule hr
    have hlt := hlow.ids_lt rule.body (List.mem_map.2 ⟨rule, hr, rfl⟩)
    rwa [Nat.zero_add, hlen] at hlt
  have hclause : ∀ {id clause}, g.clause? id = some clause →
      (∃ name, ∃ rule ∈ g.rules, clause = .reference name rule.body) ∨
        (clause.isReference = false ∧ clause ∈ lowered) := by
    intro id clause hid
    rw [Grammar.clause?, ← Array.getElem?_toList] at hid
    obtain ⟨hlt, rfl⟩ := List.getElem?_eq_some_iff.1 hid
    have hlt' : id < lowered.length := by rwa [hpairs.length_eq]
    rcases resolve_eq_ok (hpairs.get hlt' hlt) with href | ⟨hnot, heq⟩
    · exact .inl href
    · have hmem := List.get_mem lowered ⟨id, hlt'⟩
      rw [← heq] at hmem
      exact .inr ⟨hnot, hmem⟩
  refine ⟨?_, hbody, ?_⟩
  · intro id clause hid child hchild
    rcases hclause hid with ⟨name, rule, hr, rfl⟩ | ⟨hnot, hmem⟩
    · rw [Clause.children, List.mem_singleton] at hchild
      exact hchild ▸ hbody rule hr
    · have hlt := hlow.below clause hmem hnot child hchild
      rwa [Nat.zero_add, hlen] at hlt
  · intro id hid
    have hget : g.clause? id = some g.clauses[id] := Array.getElem?_eq_getElem hid
    rcases hclause hget with ⟨name, rule, hr, heq⟩ | ⟨hnot, -⟩
    · have hends := checkCycles_eq_ok hcycles rule hr
      have hlonger : endsInBody g.clauses (g.clauses.size + 2) id = true := by
        rw [endsInBody, ← Grammar.clause?, hget, heq]
        exact hends
      exact endsInBody_size hlonger
    · rw [endsInBody, ← Grammar.clause?, hget]
      cases hclause : g.clauses[id] with
      | reference name target => rw [hclause] at hnot; cases hnot
      | _ => rfl

end Packrat
