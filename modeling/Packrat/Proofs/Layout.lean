import Mathlib.Algebra.GroupWithZero.Nat
import Packrat.Proofs.RuleOrder

/-!
# Lowering loses nothing

The table of a built grammar is its definitions, laid out flat. Each expression has one clause, its parts
come before it, and no two expressions share one.

* `Nests` — clauses after their parts, each of them listed once: as one of some given indices, or as a
  part. It is compositional, so lowering keeps it.
* `Grammar.partsAt`, `Grammar.Owned` — the parts of a clause of a grammar; a clause that belongs to one
  rule or to one other clause.
* `Grammar.Lays.nests`, `Nests.owned` — the table of a grammar that holds its definitions.
* **`build_loses_nothing`** — the whole layout, from the number of clauses to the expressions that are
  read back.
-/

namespace Packrat

/-! ## Clauses after their parts -/

/-- **Whether clauses stand after their parts, and each has one owner**: from an index on, the given
indices and the parts of the clauses are the indices of all clauses, each listed once. -/
structure Nests (base : Nat) (clauses : List Clause) (ids : List ClauseId) : Prop where
  /-- The parts of a clause come before it. -/
  earlier : ∀ {i clause}, clauses[i]? = some clause → ∀ part ∈ clause.parts, part < base + i
  /-- Each index is listed once. -/
  perm : (ids ++ clauses.flatMap Clause.parts).Perm (List.range' base clauses.length)

namespace Nests

variable {base : Nat} {clauses others : List Clause} {ids otherIds : List ClauseId}

/-- The given indices are among those of the clauses. -/
theorem lt_of_mem (h : Nests base clauses ids) {id : ClauseId} (hid : id ∈ ids) :
    id < base + clauses.length :=
  (List.mem_range'_1.1 (h.perm.subset (List.mem_append_left _ hid))).2

/-- A clause after its parts. -/
theorem above (h : Nests base clauses ids) {clause : Clause} (hparts : clause.parts = ids) :
    Nests base (clauses ++ [clause]) [base + clauses.length] where
  earlier := by
    intro i other hi part hpart
    rcases Nat.lt_or_ge i clauses.length with hlt | hge
    · rw [List.getElem?_append_left hlt] at hi
      exact h.earlier hi part hpart
    · rw [List.getElem?_append_right hge] at hi
      obtain ⟨hlast, rfl⟩ := List.getElem?_eq_some_iff.1 hi
      rw [List.getElem_singleton, hparts] at hpart
      exact Nat.lt_of_lt_of_le (h.lt_of_mem hpart) (Nat.add_le_add_left hge base)
  perm := by
    have hlist : (clauses ++ [clause]).flatMap Clause.parts = clauses.flatMap Clause.parts ++ ids := by
      rw [List.flatMap_append, List.flatMap_singleton, hparts]
    have hrange : List.range' base (clauses ++ [clause]).length =
        List.range' base clauses.length ++ [base + clauses.length] := by
      rw [List.length_append, List.length_singleton, List.range'_concat, Nat.one_mul]
    rw [hlist, hrange]
    exact List.perm_append_comm.trans ((List.perm_append_comm.trans h.perm).append_right _)

/-- Clauses after others. -/
theorem append (h : Nests base clauses ids) (h' : Nests (base + clauses.length) others otherIds) :
    Nests base (clauses ++ others) (ids ++ otherIds) where
  earlier := by
    intro i clause hi part hpart
    rcases Nat.lt_or_ge i clauses.length with hlt | hge
    · rw [List.getElem?_append_left hlt] at hi
      exact h.earlier hi part hpart
    · rw [List.getElem?_append_right hge] at hi
      have hlt := h'.earlier hi part hpart
      omega
  perm := by
    rw [List.flatMap_append, List.length_append, ← List.range'_append_1]
    refine .trans ?_ (h.perm.append h'.perm)
    rw [List.append_assoc, List.append_assoc, ← List.append_assoc otherIds,
      ← List.append_assoc (clauses.flatMap _)]
    exact (List.perm_append_comm.append_right _).append_left _

/-- Only the parts of the clauses matter. -/
theorem of_parts (h : Nests base clauses ids)
    (hparts : others.map Clause.parts = clauses.map Clause.parts) : Nests base others ids where
  earlier := by
    intro i clause hi part hpart
    have hsame : (clauses.map Clause.parts)[i]? = some clause.parts := by
      rw [← hparts, List.getElem?_map, hi]
      rfl
    rw [List.getElem?_map] at hsame
    obtain ⟨other, hother, heq⟩ := Option.map_eq_some_iff.1 hsame
    exact h.earlier hother part (heq ▸ hpart)
  perm := by
    have hlength : others.length = clauses.length := by simpa using congrArg List.length hparts
    rw [List.flatMap_def, hparts, hlength, ← List.flatMap_def]
    exact h.perm

/-- **Lowering nests.** -/
theorem compositional : Compositional Nests where
  nil _ := ⟨nofun, .nil⟩
  above h hparts := h.above hparts
  append h h' := h.append h'

end Nests

/-- Filling in a reference does not change what a clause is made of. -/
theorem parts_of_resolve {rules : List Rule} {clause placed : Clause}
    (h : resolve rules clause = .ok placed) : placed.parts = clause.parts := by
  cases clause with
  | reference name target =>
    rw [resolve] at h
    split at h
    · cases h
      rfl
    · cases h
  | _ =>
    cases h
    rfl

/-- A reference is filled in with the body of the rule that it names. -/
theorem target_of_resolve {rules : List Rule} {clause : Clause} {name : String} {target : ClauseId}
    (h : resolve rules clause = .ok (.reference name target)) :
    ∃ rule, rules.find? (·.name == name) = some rule ∧ rule.body = target := by
  cases clause with
  | reference =>
    rw [resolve] at h
    split at h
    · rename_i rule hfind
      cases h
      exact ⟨rule, hfind, rfl⟩
    · cases h
  | _ => cases h

/-- Filling in references does not change what clauses are made of. -/
theorem map_parts_of_resolve {rules : List Rule} {lowered placed : List Clause}
    (h : List.Forall₂ (fun clause placed => resolve rules clause = .ok placed) lowered placed) :
    placed.map Clause.parts = lowered.map Clause.parts := by
  induction h with
  | nil => rfl
  | cons hclause _ ih => rw [List.map_cons, List.map_cons, parts_of_resolve hclause, ih]

/-! ## Clauses and their owners -/

namespace Grammar

/-- The parts of the clause with that index. -/
def partsAt (g : Grammar) (id : ClauseId) : List ClauseId :=
  ((g.clause? id).map Clause.parts).getD []

/-- **Whether a clause has one owner**: it is the body of exactly one rule and no part of a clause, or a
part of exactly one clause, and there only once, and the body of no rule. -/
def Owned (g : Grammar) (id : ClauseId) : Prop :=
  ((∃! rule, rule ∈ g.rules ∧ rule.body = id) ∧ ∀ parent, id ∉ g.partsAt parent) ∨
    ((∀ rule ∈ g.rules, rule.body ≠ id) ∧
      ∃ parent, (g.partsAt parent).count id = 1 ∧ ∀ other ≠ parent, id ∉ g.partsAt other)

variable {g : Grammar}

/-- The parts of a clause are those of an entry of the table. -/
theorem mem_partsAt {id parent : ClauseId} :
    id ∈ g.partsAt parent ↔ ∃ clause, g.clauses.toList[parent]? = some clause ∧ id ∈ clause.parts := by
  rw [partsAt, clause?, ← Array.getElem?_toList]
  cases g.clauses.toList[parent]? with
  | none => simp
  | some clause => simp

/-- The parts of all clauses are those of each. -/
theorem mem_flatMap_parts {id : ClauseId} :
    id ∈ g.clauses.toList.flatMap Clause.parts ↔ ∃ parent, id ∈ g.partsAt parent := by
  rw [List.mem_flatMap]
  constructor
  · rintro ⟨clause, hclause, hid⟩
    obtain ⟨parent, hparent⟩ := List.mem_iff_getElem?.1 hclause
    exact ⟨parent, mem_partsAt.2 ⟨clause, hparent, hid⟩⟩
  · rintro ⟨parent, hid⟩
    obtain ⟨clause, hclause, hpart⟩ := mem_partsAt.1 hid
    exact ⟨clause, List.mem_of_getElem? hclause, hpart⟩

/-- If the parts of all clauses are listed once, so are those of each. -/
theorem count_partsAt (hnodup : (g.clauses.toList.flatMap Clause.parts).Nodup) {id parent : ClauseId}
    (hid : id ∈ g.partsAt parent) : (g.partsAt parent).count id = 1 := by
  obtain ⟨clause, hclause, hpart⟩ := mem_partsAt.1 hid
  have honce := (List.nodup_flatMap.1 hnodup).1 clause (List.mem_of_getElem? hclause)
  rw [partsAt, clause?, ← Array.getElem?_toList, hclause]
  exact List.count_eq_one_of_mem honce hpart

/-- If the parts of all clauses are listed once, an earlier clause shares none with a later one. -/
theorem not_mem_partsAt_of_lt (hnodup : (g.clauses.toList.flatMap Clause.parts).Nodup)
    {id first second : ClauseId} (hlt : first < second) (hid : id ∈ g.partsAt first) :
    id ∉ g.partsAt second := by
  intro hid'
  obtain ⟨clause, hclause, hpart⟩ := mem_partsAt.1 hid
  obtain ⟨clause', hclause', hpart'⟩ := mem_partsAt.1 hid'
  obtain ⟨hsize, rfl⟩ := List.getElem?_eq_some_iff.1 hclause
  obtain ⟨hsize', rfl⟩ := List.getElem?_eq_some_iff.1 hclause'
  exact List.pairwise_iff_getElem.1 (List.nodup_flatMap.1 hnodup).2 first second hsize hsize' hlt hpart
    hpart'

end Grammar

/-- **Each clause of a table that nests has one owner.** -/
theorem Nests.owned {g : Grammar} (h : Nests 0 g.clauses.toList (g.rules.map (·.body)))
    {id : ClauseId} (hid : id < g.clauses.size) : g.Owned id := by
  have hnodup := h.perm.nodup_iff.2 List.nodup_range'
  obtain ⟨hbodies, hparts, hdisjoint⟩ := List.nodup_append.1 hnodup
  have hlisted : id ∈ g.rules.map (·.body) ++ g.clauses.toList.flatMap Clause.parts := by
    refine h.perm.mem_iff.2 (List.mem_range'_1.2 ⟨Nat.zero_le _, ?_⟩)
    rwa [Nat.zero_add, Array.length_toList]
  rcases List.mem_append.1 hlisted with hbody | hpart
  · refine .inl ⟨?_, fun parent hparent => ?_⟩
    · obtain ⟨rule, hrule, rfl⟩ := List.mem_map.1 hbody
      refine ⟨rule, ⟨hrule, rfl⟩, ?_⟩
      rintro other ⟨hother, heq⟩
      exact List.inj_on_of_nodup_map hbodies hother hrule heq
    · exact hdisjoint id hbody id (Grammar.mem_flatMap_parts.2 ⟨parent, hparent⟩) rfl
  · obtain ⟨parent, hparent⟩ := Grammar.mem_flatMap_parts.1 hpart
    refine .inr ⟨?_, parent, ?_, ?_⟩
    · rintro rule hrule rfl
      exact hdisjoint _ (List.mem_map.2 ⟨rule, hrule, rfl⟩) _ hpart rfl
    · exact Grammar.count_partsAt hparts hparent
    · intro other hne hother
      rcases Nat.lt_or_gt_of_ne hne with hlt | hgt
      · exact Grammar.not_mem_partsAt_of_lt hparts hlt hother hparent
      · exact Grammar.not_mem_partsAt_of_lt hparts hgt hparent hother

/-- The number of clauses of a list of definitions. -/
theorem room_eq_sum (definitions : List Definition) :
    room definitions = (definitions.map (·.body.size)).sum := by
  induction definitions with
  | nil => rfl
  | cons definition rest ih => rw [room, ih, List.map_cons, List.sum_cons]

section layout

variable {g : Grammar} {definitions : List Definition}

/-- The table of a grammar that holds its definitions nests. -/
theorem Grammar.Lays.nests (h : g.Lays definitions) :
    Nests 0 g.clauses.toList (g.rules.map (·.body)) := by
  obtain ⟨lowered, hlower, hresolve⟩ := h
  have hnests := Nests.compositional.lowerAll definitions (Nests.compositional.nil 0) hlower
  exact hnests.of_parts (map_parts_of_resolve (forall₂_of_mapM_eq_ok hresolve))

/-- A reference of a grammar that holds its definitions has the body of the rule that it names for its
target. -/
theorem Grammar.Lays.target_eq (h : g.Lays definitions) {id target : ClauseId} {name : String}
    (hid : g.clause? id = some (.reference name target)) :
    ∃ rule, g.findRule? name = some rule ∧ rule.body = target := by
  obtain ⟨lowered, -, hresolve⟩ := h
  have hpairs := forall₂_of_mapM_eq_ok hresolve
  rw [Grammar.clause?, ← Array.getElem?_toList] at hid
  obtain ⟨hlt, hclause⟩ := List.getElem?_eq_some_iff.1 hid
  have hlt' : id < lowered.length := by rwa [hpairs.length_eq]
  have hplaced : resolve g.rules lowered[id] = .ok g.clauses.toList[id] := hpairs.get hlt' hlt
  rw [hclause] at hplaced
  exact target_of_resolve hplaced

end layout

/-- **Lowering loses nothing.** In the grammar of a list of definitions there is one clause for each
expression; the parts of a clause come before it, and each clause is the body of one rule or a part of
one clause; a reference leads to the body of the rule that it names; and the rules are those of the
definitions in order, whose bodies are read back from them, but for the marks of references. -/
theorem build_loses_nothing {definitions : List Definition} {g : Grammar}
    (hb : Grammar.build definitions = .ok g) :
    g.clauses.size = (definitions.map (·.body.size)).sum ∧
      (∀ id, ∀ part ∈ g.partsAt id, part < id) ∧
      (∀ id < g.clauses.size, g.Owned id) ∧
      (∀ id name target, g.clause? id = some (.reference name target) →
        ∃ rule, g.findRule? name = some rule ∧ rule.body = target) ∧
      List.Forall₂ (fun definition rule => rule.name = unmarked definition.name ∧
        rule.transparent = isMarked definition.name ∧
        g.exprAt? rule.body = some definition.body.bare) definitions g.rules := by
  obtain ⟨lowered, hlower, hresolve, -⟩ := build_eq_ok hb
  have hlays : g.Lays definitions := ⟨lowered, hlower, hresolve⟩
  have hnests := hlays.nests
  refine ⟨hlays.size.trans (room_eq_sum definitions), fun id part hpart => ?_,
    fun id => hnests.owned, fun id name target => hlays.target_eq, ?_⟩
  · obtain ⟨clause, hclause, hmem⟩ := Grammar.mem_partsAt.1 hpart
    have hlt := hnests.earlier hclause part hmem
    rwa [Nat.zero_add] at hlt
  · exact (build_defines hb).imp fun _ _ hdefines =>
      ⟨hdefines.name, hdefines.transparent, hdefines.exprAt?_eq⟩

/-- Letters with blanks after them, the blanks named before they are defined. -/
def blanksDefinitions : List Definition :=
  [⟨"S", .plus (.seq [.lit "a", .reference "~Blanks"])⟩, ⟨"~Blanks", .star (.char ' ')⟩]

/-- The grammar of the letters. -/
def blanksGrammar : Grammar where
  clauses := #[.literal ['a'], .reference "Blanks" 5, .seq [0, 1], .repeated 2 true, .char ' ',
    .repeated 4 false]
  rules := [⟨"S", false, 3⟩, ⟨"Blanks", true, 5⟩]

/-- The layout of that grammar: six clauses, the fifth of which belongs to the last, and the first body
without the mark. -/
theorem build_loses_nothing_blanks :
    Grammar.build blanksDefinitions = .ok blanksGrammar ∧
      blanksGrammar.clauses.size = (blanksDefinitions.map (·.body.size)).sum ∧
      (∀ id, ∀ part ∈ blanksGrammar.partsAt id, part < id) ∧ blanksGrammar.Owned 4 ∧
      (∃ rule, blanksGrammar.findRule? "Blanks" = some rule ∧ rule.body = 5) ∧
      blanksGrammar.exprAt? 3 = some (.plus (.seq [.lit "a", .reference "Blanks"])) := by
  have hb : Grammar.build blanksDefinitions = .ok blanksGrammar := rfl
  obtain ⟨hsize, hparts, howned, htarget, hrules⟩ := build_loses_nothing hb
  exact ⟨hb, hsize, hparts, howned 4 (by decide), htarget 1 "Blanks" 5 rfl,
    (List.forall₂_cons.1 hrules).1.2.2⟩

end Packrat
