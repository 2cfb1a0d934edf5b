import Packrat.Proofs.Refusals
import Packrat.Proofs.RenumberedRuns

/-!
# The order of definitions

The clauses of a definition stand together in the table, after those of the definitions before it. In
another order they stand elsewhere, and that is all.

* `lower_moved` — an expression is lowered to the same clauses at every place, up to their numbers.
* `Grammar.Lays` — a grammar whose table holds the clauses of a list of definitions, with their
  references filled in; `Grammar.Lays.block` — where those of each definition stand.
* `occurrences` — the expressions of a list of definitions in the order of the table, each by the name
  of its rule and its place in the body; `counterpart` — the number that the same expression has in
  another order.
* `Grammar.Lays.renumbers` — the tables of two orders correspond; `Grammar.Lays.exists_of_perm` — if
  there is one for one order, there is one for each.
* **`parse_ignores_rule_order`** — in every order the same definitions are accepted, and every parse
  gives the same result, up to the numbers of the clauses.
-/

namespace Packrat

/-! ## Lowering elsewhere -/

/-- The clause with the clauses that it consults renumbered. The target of a reference is not filled in
before all definitions are lowered, and stays. -/
def Clause.moved (π : ClauseId → ClauseId) : Clause → Clause
  | .reference name target => .reference name target
  | clause => clause.renumber π

mutual

/-- **An expression is lowered to the same clauses at every place.** -/
theorem lower_moved {rule : String} {π : ClauseId → ClauseId} : (e : Expr) → ∀ {base base' : Nat}
    {clauses : List Clause} {id : ClauseId}, lower rule base e = .ok (clauses, id) →
    (∀ i < e.size, π (base + i) = base' + i) →
    lower rule base' e = .ok (clauses.map (Clause.moved π), π id)
  | .literal _, base, base', _, _, h, hπ | .char _, base, base', _, _, h, hπ
  | .anyChar, base, base', _, _, h, hπ | .empty, base, base', _, _, h, hπ
  | .reference _, base, base', _, _, h, hπ => by
    have hbase : π base = base' := hπ 0 Nat.one_pos
    cases h
    rw [hbase]
    rfl
  | .charClass ranges inverted, base, base', _, _, h, hπ => by
    have hbase : π base = base' := hπ 0 Nat.one_pos
    rw [lower] at h ⊢
    split at h
    · cases h
    · rename_i hne
      cases h
      rw [if_neg hne, hbase]
      rfl
  | .seq items, base, base', _, _, h, hπ | .choice items, base, base', _, _, h, hπ => by
    rw [lower] at h ⊢
    split at h
    · cases h
    · rename_i hne
      obtain ⟨⟨clauses, ids⟩, hitems, h⟩ := except_bind_eq_ok.1 h
      cases h
      have hmoved := lowerItems_moved items hitems fun i hi => hπ i (Nat.lt_succ_of_lt hi)
      have hlast : π (base + clauses.length) = base' + clauses.length := by
        rw [lowerItems_length items hitems]
        exact hπ _ (Nat.lt_succ_self _)
      rw [if_neg hne]
      refine except_bind_eq_ok.2 ⟨_, hmoved, ?_⟩
      dsimp only
      rw [List.length_map, hlast, List.map_append]
      rfl
  | .repeated item _, base, base', _, _, h, hπ | .optional item, base, base', _, _, h, hπ
  | .ahead item, base, base', _, _, h, hπ | .notAhead item, base, base', _, _, h, hπ => by
    rw [lower] at h ⊢
    obtain ⟨⟨clauses, id⟩, hitem, h⟩ := except_bind_eq_ok.1 h
    cases h
    have hmoved := lower_moved item hitem fun i hi => hπ i (Nat.lt_succ_of_lt hi)
    have hlast : π (base + clauses.length) = base' + clauses.length := by
      rw [(lower_length item hitem).1]
      exact hπ _ (Nat.lt_succ_self _)
    refine except_bind_eq_ok.2 ⟨_, hmoved, ?_⟩
    dsimp only
    rw [List.length_map, hlast, List.map_append]
    rfl

/-- Several expressions are lowered to the same clauses at every place. -/
theorem lowerItems_moved {rule : String} {π : ClauseId → ClauseId} : (items : List Expr) →
    ∀ {base base' : Nat} {clauses : List Clause} {ids : List ClauseId},
    lowerItems rule base items = .ok (clauses, ids) →
    (∀ i < Expr.sizeItems items, π (base + i) = base' + i) →
    lowerItems rule base' items = .ok (clauses.map (Clause.moved π), ids.map π)
  | [], _, _, _, _, h, _ => by
    cases h
    rfl
  | item :: rest, base, base', _, _, h, hπ => by
    rw [lowerItems] at h ⊢
    obtain ⟨⟨first, id⟩, hitem, h⟩ := except_bind_eq_ok.1 h
    obtain ⟨⟨others, ids⟩, hrest, h⟩ := except_bind_eq_ok.1 h
    cases h
    have hlength := (lower_length item hitem).1
    rw [Expr.sizeItems] at hπ
    have hfirst := lower_moved item hitem fun i hi => hπ i (by omega)
    have hothers : lowerItems rule (base' + (first.map (Clause.moved π)).length) rest =
        .ok (others.map (Clause.moved π), ids.map π) := by
      rw [List.length_map]
      refine lowerItems_moved rest hrest fun i hi => ?_
      rw [Nat.add_assoc, Nat.add_assoc]
      exact hπ _ (by omega)
    refine except_bind_eq_ok.2 ⟨_, hfirst, except_bind_eq_ok.2 ⟨_, hothers, ?_⟩⟩
    rw [List.map_append]
    rfl

end

/-- References are filled in with corresponding targets, if the bodies of the rules correspond. -/
theorem resolve_moved {π : ClauseId → ClauseId} {rules rules' : List Rule}
    (hrules : ∀ name, (rules'.find? (·.name == name)).map (·.body) =
      ((rules.find? (·.name == name)).map (·.body)).map π)
    {clause placed : Clause} (h : resolve rules clause = .ok placed) :
    resolve rules' (clause.moved π) = .ok (placed.renumber π) := by
  cases clause with
  | reference name target =>
    rw [resolve] at h
    split at h
    · rename_i rule hfind
      cases h
      have hname := hrules name
      rw [hfind] at hname
      obtain ⟨rule', hfind', hbody⟩ := Option.map_eq_some_iff.1 hname
      show resolve rules' (.reference name target) = .ok (.reference name (π rule.body))
      rw [resolve, hfind', ← hbody]
      rfl
    · cases h
  | _ =>
    cases h
    rfl

/-! ## Where the clauses of a definition stand -/

/-- The number of clauses of a list of definitions. -/
def room : List Definition → Nat
  | [] => 0
  | definition :: rest => definition.body.size + room rest

/-- Lowering definitions in two parts. -/
theorem lowerAll_append : ∀ (before after : List Definition) (clauses : List Clause) (rules : List Rule),
    lowerAll clauses rules (before ++ after) =
      (lowerAll clauses rules before >>= fun result => lowerAll result.1 result.2 after)
  | [], _, _, _ => rfl
  | definition :: rest, after, clauses, rules => by
    rw [List.cons_append, lowerAll, lowerAll, bind_assoc]
    refine bind_congr fun _ => ?_
    rw [bind_assoc]
    exact bind_congr fun _ => lowerAll_append rest after _ _

/-- Lowering definitions adds their clauses to those before them and their rules to those before
them. -/
theorem lowerAll_extends : ∀ {definitions : List Definition} {clauses clauses' : List Clause}
    {rules rules' : List Rule}, lowerAll clauses rules definitions = .ok (clauses', rules') →
    (clauses <+: clauses' ∧ clauses'.length = clauses.length + room definitions) ∧
      rules <+: rules' ∧
      rules'.map (·.name) = rules.map (·.name) ++ definitions.map (unmarked ·.name)
  | [], _, _, _, _, h => by
    cases h
    exact ⟨⟨List.prefix_rfl, rfl⟩, List.prefix_rfl, (List.append_nil _).symm⟩
  | definition :: rest, clauses, _, rules, _, h => by
    rw [lowerAll] at h
    obtain ⟨⟨⟩, -, h⟩ := except_bind_eq_ok.1 h
    obtain ⟨⟨more, body⟩, hlower, h⟩ := except_bind_eq_ok.1 h
    obtain ⟨⟨hclauses, hlength⟩, hrules, hnames⟩ := lowerAll_extends h
    refine ⟨⟨(List.prefix_append _ _).trans hclauses, ?_⟩, (List.prefix_append _ _).trans hrules, ?_⟩
    · rw [hlength, List.length_append, (lower_length definition.body hlower).1, room,
        Nat.add_assoc]
    · simpa using hnames

/-- **Whether the table of a grammar holds the clauses of definitions**, one after the other and with
their references filled in. -/
def Grammar.Lays (g : Grammar) (definitions : List Definition) : Prop :=
  ∃ lowered, lowerAll [] [] definitions = .ok (lowered, g.rules) ∧
    lowered.mapM (resolve g.rules) = .ok g.clauses.toList

namespace Grammar.Lays

variable {g : Grammar} {definitions : List Definition} (h : g.Lays definitions)
include h

/-- The rules have the names of the definitions. -/
theorem names : g.rules.map (·.name) = definitions.map (unmarked ·.name) := by
  obtain ⟨lowered, hlower, -⟩ := h
  exact (lowerAll_extends hlower).2.2

/-- The rules have different names. -/
theorem nodup : (definitions.map (unmarked ·.name)).Nodup := by
  obtain ⟨lowered, hlower, hresolve⟩ := h
  rw [← Grammar.Lays.names ⟨lowered, hlower, hresolve⟩]
  exact (lowerAll_defines definitions (by simp) hlower (places_of_resolved hresolve)).1

/-- The table has room for all definitions and for nothing else. -/
theorem size : g.clauses.size = room definitions := by
  obtain ⟨lowered, hlower, hresolve⟩ := h
  rw [← Array.length_toList, ← (forall₂_of_mapM_eq_ok hresolve).length_eq,
    (lowerAll_extends hlower).1.2]
  exact Nat.zero_add _

omit h in
/-- **Where the clauses of a definition stand**: after those of the definitions before it. -/
theorem block {before after : List Definition} {definition : Definition}
    (h : g.Lays (before ++ definition :: after)) :
    ∃ clauses body, lower (unmarked definition.name) (room before) definition.body = .ok (clauses, body) ∧
      g.Places (room before) clauses ∧
      ⟨unmarked definition.name, isMarked definition.name, body⟩ ∈ g.rules := by
  obtain ⟨lowered, hlower, hresolve⟩ := h
  have hplaces := places_of_resolved hresolve
  rw [lowerAll_append] at hlower
  obtain ⟨⟨earlier, rules⟩, hbefore, hlower⟩ := except_bind_eq_ok.1 hlower
  have hlength : earlier.length = room before := by
    rw [(lowerAll_extends hbefore).1.2]
    exact Nat.zero_add _
  rw [lowerAll] at hlower
  obtain ⟨⟨⟩, -, hlower⟩ := except_bind_eq_ok.1 hlower
  obtain ⟨⟨clauses, body⟩, hbody, hafter⟩ := except_bind_eq_ok.1 hlower
  obtain ⟨⟨⟨others, rfl⟩, -⟩, hrules, -⟩ := lowerAll_extends hafter
  refine ⟨clauses, body, hlength ▸ hbody, ?_, hrules.subset (by simp)⟩
  have hhere := hplaces.left.right
  rwa [Nat.zero_add, hlength] at hhere

end Grammar.Lays

/-! ## Counterparts -/

/-- The expressions of a list of definitions in the order of the table, each by the name of its rule and
its place in the body. -/
def occurrences (definitions : List Definition) : List (String × Nat) :=
  definitions.flatMap fun definition =>
    (List.range definition.body.size).map fun place => (unmarked definition.name, place)

/-- The number that an expression has among the same definitions in another order. -/
def counterpart (definitions permuted : List Definition) (id : ClauseId) : ClauseId :=
  match (occurrences definitions)[id]? with
  | some occurrence => (occurrences permuted).idxOf occurrence
  | none => id

/-- There is one occurrence for each clause. -/
theorem length_occurrences (definitions : List Definition) :
    (occurrences definitions).length = room definitions := by
  induction definitions with
  | nil => rfl
  | cons definition rest ih =>
    rw [room, ← ih]
    simp [occurrences]

/-- The occurrences in a body come after those in the bodies before it. -/
theorem getElem?_occurrences (before after : List Definition) {definition : Definition} {place : Nat}
    (h : place < definition.body.size) :
    (occurrences (before ++ definition :: after))[room before + place]? =
      some (unmarked definition.name, place) := by
  have hsplit : occurrences (before ++ definition :: after) = occurrences before ++
      ((List.range definition.body.size).map (fun place => (unmarked definition.name, place)) ++
        occurrences after) := by
    simp [occurrences]
  rw [hsplit, ← length_occurrences, List.getElem?_append_right (Nat.le_add_right _ _),
    Nat.add_sub_cancel_left, List.getElem?_append_left (by simpa using h)]
  simp [h]

/-- Each expression occurs once, if the names are different. -/
theorem nodup_occurrences {definitions : List Definition}
    (h : (definitions.map (unmarked ·.name)).Nodup) : (occurrences definitions).Nodup := by
  refine List.nodup_flatMap.2 ⟨fun definition _ => ?_, ?_⟩
  · exact List.nodup_range.map fun place other heq => (Prod.mk.inj heq).2
  · refine (List.pairwise_map.1 h).imp fun {first second} hne => ?_
    rintro ⟨name, place⟩ hfirst hsecond
    obtain ⟨_, -, heq⟩ := List.mem_map.1 hfirst
    obtain ⟨_, -, heq'⟩ := List.mem_map.1 hsecond
    exact hne ((Prod.mk.inj heq).1.trans (Prod.mk.inj heq').1.symm)

/-- Each clause belongs to one of the definitions. -/
theorem exists_block : ∀ {definitions : List Definition} {id : Nat}, id < room definitions →
    ∃ before definition after place, definitions = before ++ definition :: after ∧
      place < definition.body.size ∧ id = room before + place
  | [], _, h => absurd h (Nat.not_lt_zero _)
  | first :: rest, id, h => by
    rw [room] at h
    rcases Nat.lt_or_ge id first.body.size with hlt | hge
    · exact ⟨[], first, rest, id, rfl, hlt, (Nat.zero_add id).symm⟩
    · have hrest : id - first.body.size < room rest := by omega
      obtain ⟨before, definition, after, place, rfl, hplace, heq⟩ := exists_block hrest
      refine ⟨first :: before, definition, after, place, rfl, hplace, ?_⟩
      rw [room]
      omega

/-- **The clauses of a definition are moved together** to where it stands in the other order. -/
theorem counterpart_block {before after before' after' : List Definition} {definition : Definition}
    (hnodup : ((before' ++ definition :: after').map (unmarked ·.name)).Nodup) {place : Nat}
    (h : place < definition.body.size) :
    counterpart (before ++ definition :: after) (before' ++ definition :: after')
      (room before + place) = room before' + place := by
  have hthere := getElem?_occurrences before' after' h
  obtain ⟨hlt, heq⟩ := List.getElem?_eq_some_iff.1 hthere
  rw [counterpart, getElem?_occurrences before after h]
  dsimp only
  rw [← heq]
  exact (nodup_occurrences hnodup).idxOf_getElem _ hlt

/-- Different expressions have different counterparts. -/
theorem counterpart_injective {definitions permuted : List Definition}
    (hperm : definitions.Perm permuted) (hnodup : (definitions.map (unmarked ·.name)).Nodup) :
    Function.Injective (counterpart definitions permuted) := by
  have hsame : (occurrences definitions).Perm (occurrences permuted) := hperm.flatMap_right _
  -- Counterparts of occurrences are in range, and everything else stays out of it.
  have hrange : ∀ id, counterpart definitions permuted id < (occurrences definitions).length ↔
      id < (occurrences definitions).length := by
    intro id
    unfold counterpart
    split
    · rename_i occurrence hid
      obtain ⟨hlt, rfl⟩ := List.getElem?_eq_some_iff.1 hid
      refine iff_of_true ?_ hlt
      rw [hsame.length_eq]
      exact List.idxOf_lt_length_of_mem (hsame.subset (List.getElem_mem hlt))
    · rfl
  intro first second heq
  by_cases hlt : first < (occurrences definitions).length
  · have hlt' : second < (occurrences definitions).length := by
      rw [← hrange, ← heq, hrange]
      exact hlt
    rw [counterpart, counterpart, List.getElem?_eq_getElem hlt, List.getElem?_eq_getElem hlt'] at heq
    have hoccurrence := (List.idxOf_inj (hsame.subset (List.getElem_mem hlt))).1 heq
    exact (nodup_occurrences hnodup).getElem_inj_iff.1 hoccurrence
  · have hge' : ¬ second < (occurrences definitions).length := by
      rw [← hrange, ← heq, hrange]
      exact hlt
    rwa [counterpart, counterpart, List.getElem?_eq_none (Nat.le_of_not_lt hlt),
      List.getElem?_eq_none (Nat.le_of_not_lt hge')] at heq

/-! ## Corresponding tables -/

namespace Grammar.Lays

variable {g g' : Grammar} {definitions permuted : List Definition}

/-- Only the names of the definitions are found. -/
theorem findRule?_eq_none (h : g.Lays definitions) {name : String}
    (hname : name ∉ definitions.map (unmarked ·.name)) : g.findRule? name = none := by
  rw [← h.names] at hname
  refine List.find?_eq_none.2 fun rule hrule heq => hname ?_
  rw [← beq_iff_eq.1 heq]
  exact List.mem_map_of_mem hrule

/-- Each rule is found by its name. -/
theorem findRule?_name (h : g.Lays definitions) {rule : Rule} (hrule : rule ∈ g.rules) :
    g.findRule? rule.name = some rule := by
  refine findRule?_of_mem ?_ hrule
  rw [h.names]
  exact h.nodup

/-- **The clauses of a definition in both tables**, and their numbers. -/
theorem blocks (hperm : definitions.Perm permuted) (h : g.Lays definitions) (h' : g'.Lays permuted)
    {before after : List Definition} {definition : Definition}
    (hsplit : definitions = before ++ definition :: after) :
    ∃ base clauses body,
      (∀ i < definition.body.size, counterpart definitions permuted (room before + i) = base + i) ∧
      clauses.length = definition.body.size ∧
      g.Places (room before) clauses ∧
      g'.Places base (clauses.map (Clause.moved (counterpart definitions permuted))) ∧
      g.findRule? (unmarked definition.name) =
        some ⟨unmarked definition.name, isMarked definition.name, body⟩ ∧
      g'.findRule? (unmarked definition.name) =
        some ⟨unmarked definition.name, isMarked definition.name,
          counterpart definitions permuted body⟩ := by
  subst hsplit
  obtain ⟨before', after', rfl⟩ := List.mem_iff_append.1 (hperm.subset (by simp : definition ∈ _))
  have hmoves : ∀ i < definition.body.size, counterpart (before ++ definition :: after)
      (before' ++ definition :: after') (room before + i) = room before' + i := fun _ hi =>
    counterpart_block h'.nodup hi
  obtain ⟨clauses, body, hlower, hplaces, hrule⟩ := h.block
  obtain ⟨clauses', body', hlower', hplaces', hrule'⟩ := h'.block
  cases (lower_moved definition.body hlower hmoves).symm.trans hlower'
  exact ⟨room before', clauses, body, hmoves, (lower_length definition.body hlower).1, hplaces, hplaces',
    h.findRule?_name hrule, h'.findRule?_name hrule'⟩

/-- The bodies of the rules correspond. -/
theorem findRule?_counterpart (hperm : definitions.Perm permuted) (h : g.Lays definitions)
    (h' : g'.Lays permuted) (name : String) :
    (g'.findRule? name).map (·.body) =
      ((g.findRule? name).map (·.body)).map (counterpart definitions permuted) := by
  by_cases hname : name ∈ definitions.map (unmarked ·.name)
  · obtain ⟨definition, hmem, rfl⟩ := List.mem_map.1 hname
    obtain ⟨before, after, hsplit⟩ := List.mem_iff_append.1 hmem
    obtain ⟨_, _, _, -, -, -, -, hfind, hfind'⟩ := blocks hperm h h' hsplit
    rw [hfind, hfind']
    rfl
  · have hname' : name ∉ permuted.map (unmarked ·.name) := fun hmem =>
      hname ((hperm.map _).mem_iff.2 hmem)
    rw [h.findRule?_eq_none hname, h'.findRule?_eq_none hname']
    rfl

/-- **The tables of two orders correspond.** -/
theorem renumbers (hperm : definitions.Perm permuted) (h : g.Lays definitions) (h' : g'.Lays permuted) :
    g.Renumbers (counterpart definitions permuted) g' := by
  have hsize : g'.clauses.size = g.clauses.size := by
    rw [h.size, h'.size, ← length_occurrences, ← length_occurrences]
    exact (hperm.flatMap_right _).length_eq.symm
  refine ⟨counterpart_injective hperm h.nodup, hsize, fun id => ?_, fun name => ?_⟩
  · rcases Nat.lt_or_ge id (room definitions) with hlt | hge
    · obtain ⟨before, definition, after, place, hsplit, hplace, rfl⟩ := exists_block hlt
      obtain ⟨base, clauses, _, hmoves, hlength, hplaces, hplaces', -⟩ := blocks hperm h h' hsplit
      have hlt' : place < clauses.length := by rwa [hlength]
      have hget : clauses[place]? = some clauses[place] := List.getElem?_eq_getElem hlt'
      obtain ⟨placed, hplaced, hresolve⟩ := hplaces place _ hget
      obtain ⟨placed', hplaced', hresolve'⟩ := hplaces' place _ (by rw [List.getElem?_map, hget]; rfl)
      have hsame := resolve_moved (findRule?_counterpart hperm h h') hresolve
      cases hsame.symm.trans hresolve'
      rw [hmoves place hplace, hplaced, hplaced']
      rfl
    · have hout : counterpart definitions permuted id = id := by
        rw [counterpart, List.getElem?_eq_none (by rwa [length_occurrences])]
      rw [hout, Grammar.clause?, Grammar.clause?, Array.getElem?_eq_none (by rwa [hsize, h.size]),
        Array.getElem?_eq_none (by rwa [h.size])]
      rfl
  · exact findRule?_counterpart hperm h h' (unmarked name)

end Grammar.Lays

/-! ## Building in another order -/

/-- New names pass. -/
theorem checkName_of_notMem {earlier : List Rule} {name : String} (transparent : Bool)
    (h : name ∉ earlier.map (·.name)) : checkName earlier name transparent = .ok () := by
  have hnone : earlier.find? (·.name == name) = none := by
    refine List.find?_eq_none.2 fun rule hrule heq => h ?_
    rw [← beq_iff_eq.1 heq]
    exact List.mem_map_of_mem hrule
  rw [checkName, hnone]
  rfl

/-- An expression that is lowered at one place is lowered at each. -/
theorem exists_lower_elsewhere {rule : String} {e : Expr} {base : Nat} {clauses : List Clause}
    {id : ClauseId} (h : lower rule base e = .ok (clauses, id)) (base' : Nat) :
    ∃ π : ClauseId → ClauseId, lower rule base' e = .ok (clauses.map (Clause.moved π), π id) := by
  refine ⟨fun id => id - base + base', lower_moved e h fun i _ => ?_⟩
  show base + i - base + base' = base' + i
  omega

/-- Definitions with different names are lowered if each of them is. -/
theorem exists_lowerAll : ∀ {definitions : List Definition} (clauses : List Clause) {rules : List Rule},
    (∀ definition ∈ definitions,
      ∃ base result, lower (unmarked definition.name) base definition.body = .ok result) →
    (rules.map (·.name) ++ definitions.map (unmarked ·.name)).Nodup →
    ∃ result, lowerAll clauses rules definitions = .ok result
  | [], _, _, _, _ => ⟨_, rfl⟩
  | definition :: rest, clauses, rules, hlower, hnodup => by
    obtain ⟨⟨base, result, hbody⟩, hrest⟩ := List.forall_mem_cons.1 hlower
    obtain ⟨π, hhere⟩ := exists_lower_elsewhere hbody clauses.length
    have hnew : unmarked definition.name ∉ rules.map (·.name) := fun hmem =>
      (List.nodup_append.1 hnodup).2.2 _ hmem _ List.mem_cons_self rfl
    let rule : Rule := ⟨unmarked definition.name, isMarked definition.name, π result.2⟩
    have hnodup' : ((rules ++ [rule]).map (·.name) ++ rest.map (unmarked ·.name)).Nodup := by
      simpa using hnodup
    obtain ⟨final, hfinal⟩ := exists_lowerAll (clauses ++ result.1.map (Clause.moved π)) hrest hnodup'
    rw [lowerAll]
    exact ⟨final, except_bind_eq_ok.2 ⟨(), checkName_of_notMem _ hnew,
      except_bind_eq_ok.2 ⟨_, hhere, hfinal⟩⟩⟩

/-- Each clause comes from one of the definitions. -/
theorem mem_lowerAll : ∀ {definitions : List Definition} {clauses clauses' : List Clause}
    {rules rules' : List Rule} {clause : Clause},
    lowerAll clauses rules definitions = .ok (clauses', rules') → clause ∈ clauses' →
    clause ∈ clauses ∨ ∃ definition ∈ definitions, ∃ base more body,
      lower (unmarked definition.name) base definition.body = .ok (more, body) ∧ clause ∈ more
  | [], _, _, _, _, _, h, hmem => by
    cases h
    exact .inl hmem
  | definition :: rest, clauses, _, _, _, _, h, hmem => by
    rw [lowerAll] at h
    obtain ⟨⟨⟩, -, h⟩ := except_bind_eq_ok.1 h
    obtain ⟨⟨more, body⟩, hlower, h⟩ := except_bind_eq_ok.1 h
    rcases mem_lowerAll h hmem with hearlier | ⟨other, hother, hfrom⟩
    · rcases List.mem_append.1 hearlier with hold | hmore
      · exact .inl hold
      · exact .inr ⟨definition, List.mem_cons_self, _, more, body, hlower, hmore⟩
    · exact .inr ⟨other, List.mem_cons_of_mem _ hother, hfrom⟩

/-- A reference to the name of a rule is filled in. -/
theorem exists_resolve_reference {rules : List Rule} {name : String} (h : name ∈ rules.map (·.name))
    (target : ClauseId) : ∃ placed, resolve rules (.reference name target) = .ok placed := by
  obtain ⟨rule, hrule, hname⟩ := List.mem_map.1 h
  obtain ⟨found, hfound⟩ : ∃ found, rules.find? (·.name == name) = some found :=
    Option.isSome_iff_exists.1 (List.find?_isSome.2 ⟨rule, hrule, beq_iff_eq.2 hname⟩)
  refine ⟨.reference name found.body, ?_⟩
  rw [resolve, hfound]
  rfl

/-- References are filled in wherever there are rules of the same names. -/
theorem exists_resolve_moved {rules rules' : List Rule}
    (hnames : ∀ name ∈ rules.map (·.name), name ∈ rules'.map (·.name)) (π : ClauseId → ClauseId)
    {clause placed : Clause} (h : resolve rules clause = .ok placed) :
    ∃ placed', resolve rules' (clause.moved π) = .ok placed' := by
  cases clause with
  | reference name target =>
    rw [resolve] at h
    split at h
    · rename_i rule hfind
      have hname : rule.name = name := by simpa using List.find?_some hfind
      have hmem : name ∈ rules.map (·.name) := hname ▸ List.mem_map_of_mem (List.mem_of_find?_eq_some hfind)
      exact exists_resolve_reference (hnames name hmem) target
    · cases h
  | _ => exact ⟨_, rfl⟩

/-- **If there is a table for one order of definitions, there is one for each.** -/
theorem Grammar.Lays.exists_of_perm {g : Grammar} {definitions permuted : List Definition}
    (hperm : definitions.Perm permuted) (h : g.Lays definitions) : ∃ g' : Grammar, g'.Lays permuted := by
  have hblock : ∀ definition ∈ permuted, ∃ base clauses body,
      lower (unmarked definition.name) base definition.body = .ok (clauses, body) ∧
        g.Places base clauses := by
    intro definition hmem
    obtain ⟨before, after, rfl⟩ := List.mem_iff_append.1 (hperm.mem_iff.2 hmem)
    obtain ⟨clauses, body, hlower, hplaces, -⟩ := h.block
    exact ⟨room before, clauses, body, hlower, hplaces⟩
  have hnodup : (permuted.map (unmarked ·.name)).Nodup := (hperm.map _).nodup_iff.1 h.nodup
  obtain ⟨⟨lowered, rules⟩, hlower⟩ : ∃ result, lowerAll [] [] permuted = .ok result := by
    refine exists_lowerAll [] (fun definition hmem => ?_) hnodup
    obtain ⟨base, clauses, body, hlower, -⟩ := hblock definition hmem
    exact ⟨base, (clauses, body), hlower⟩
  have hnames : ∀ name ∈ g.rules.map (·.name), name ∈ rules.map (·.name) := by
    intro name hname
    rw [h.names] at hname
    rw [(lowerAll_extends hlower).2.2]
    exact (hperm.map _).subset hname
  cases hresolve : lowered.mapM (resolve rules) with
  | ok resolved => exact ⟨⟨resolved.toArray, rules⟩, lowered, hlower, hresolve⟩
  | error e =>
    -- Each clause was filled in in the first order, under another number.
    obtain ⟨clause, hclause, herror⟩ := exists_of_mapM_eq_error hresolve
    rcases mem_lowerAll hlower hclause with hnone | ⟨definition, hmem, base', more, body', hmore, hclause⟩
    · cases hnone
    · obtain ⟨base, clauses, body, hbody, hplaces⟩ := hblock definition hmem
      obtain ⟨π, helsewhere⟩ := exists_lower_elsewhere hbody base'
      cases helsewhere.symm.trans hmore
      obtain ⟨first, hfirst, rfl⟩ := List.mem_map.1 hclause
      obtain ⟨i, hi⟩ := List.getElem?_of_mem hfirst
      obtain ⟨placed, -, hplaced⟩ := hplaces i first hi
      obtain ⟨placed', hplaced'⟩ := exists_resolve_moved hnames π hplaced
      cases hplaced'.symm.trans herror

/-- Chains of references are as long as their counterparts. -/
theorem Grammar.Renumbers.endsInBody_eq {π : ClauseId → ClauseId} {g g' : Grammar}
    (h : g.Renumbers π g') : ∀ (fuel : Nat) (id : ClauseId),
    endsInBody g'.clauses fuel (π id) = endsInBody g.clauses fuel id
  | 0, _ => rfl
  | fuel + 1, id => by
    have hclause := h.clause id
    rw [Grammar.clause?, Grammar.clause?] at hclause
    rw [endsInBody, endsInBody, hclause]
    rcases g.clauses[id]? with _ | clause
    · rfl
    · cases clause with
      | reference name target => exact h.endsInBody_eq fuel target
      | _ => rfl

/-- Rules whose chains of references end pass the check for cycles. -/
theorem checkCycles_of_forall {clauses : Array Clause} : ∀ {rules : List Rule},
    (∀ rule ∈ rules, endsInBody clauses (clauses.size + 1) rule.body = true) →
    checkCycles clauses rules = .ok ()
  | [], _ => rfl
  | rule :: rest, h => by
    obtain ⟨hrule, hrest⟩ := List.forall_mem_cons.1 h
    rw [checkCycles, if_pos hrule]
    exact checkCycles_of_forall hrest

/-- Definitions in another order are accepted, and the tables correspond. -/
theorem build_of_perm {definitions permuted : List Definition} {g : Grammar}
    (hperm : definitions.Perm permuted) (hb : Grammar.build definitions = .ok g) :
    ∃ g', Grammar.build permuted = .ok g' ∧ g.Renumbers (counterpart definitions permuted) g' := by
  obtain ⟨lowered, hlower, hresolve, hcycles⟩ := build_eq_ok hb
  have hlays : g.Lays definitions := ⟨lowered, hlower, hresolve⟩
  obtain ⟨g', hlays'⟩ := hlays.exists_of_perm hperm
  have hrenumbers := Grammar.Lays.renumbers hperm hlays hlays'
  have hends : ∀ rule ∈ g'.rules, endsInBody g'.clauses (g'.clauses.size + 1) rule.body = true := by
    intro rule hrule
    have hfind := Grammar.Lays.findRule?_counterpart hperm hlays hlays' rule.name
    rw [hlays'.findRule?_name hrule] at hfind
    obtain ⟨_, hbody, heq⟩ := Option.map_eq_some_iff.1 hfind.symm
    obtain ⟨first, hfirst, rfl⟩ := Option.map_eq_some_iff.1 hbody
    have hsame : rule.body = counterpart definitions permuted first.body := heq.symm
    rw [hsame, hrenumbers.size, hrenumbers.endsInBody_eq]
    exact checkCycles_eq_ok hcycles first (List.mem_of_find?_eq_some hfirst)
  obtain ⟨lowered', hlower', hresolve'⟩ := hlays'
  have hne : permuted ≠ [] := by
    rintro rfl
    rw [List.perm_nil.1 hperm] at hb
    cases hb
  refine ⟨g', ?_, hrenumbers⟩
  rw [Grammar.build, List.isEmpty_eq_false_iff.2 hne]
  refine except_bind_eq_ok.2 ⟨_, hlower', except_bind_eq_ok.2 ⟨_, hresolve', ?_⟩⟩
  exact except_bind_eq_ok.2 ⟨(), checkCycles_of_forall hends, rfl⟩

/-! ## Parsing in another order -/

/-- **The order of definitions does not matter.** If definitions are accepted in one order, they are in
each. The clauses of the two grammars correspond, expression by expression, and from every rule, on every
input and in every configuration the two parses give the same result: the same tree, with its flags and
error counts, up to the numbers of its clauses, and the same rest of the input, flag and counters. A rule
that does not exist is refused in the same way. -/
theorem parse_ignores_rule_order {definitions permuted : List Definition} {g : Grammar}
    (hperm : definitions.Perm permuted) (hb : Grammar.build definitions = .ok g) :
    ∃ g', Grammar.build permuted = .ok g' ∧ g.Renumbers (counterpart definitions permuted) g' ∧
      ∀ rule input config, parse g' rule input config =
        (parse g rule input config).map (Parse.renumber (counterpart definitions permuted) g') := by
  obtain ⟨g', hb', hrenumbers⟩ := build_of_perm hperm hb
  exact ⟨g', hb', hrenumbers, fun rule input config => parse_renumbers hrenumbers rule input config⟩

/-- Sums with the numbers defined first: the choice between sums, which was the eighth clause, is the
last one, and a repaired parse has the same tree with other numbers. -/
theorem parse_ignores_rule_order_sum :
    Grammar.build sumDefinitions = .ok sumGrammar ∧
      counterpart sumDefinitions sumDefinitions.reverse 7 = 9 ∧
      ∃ g', Grammar.build sumDefinitions.reverse = .ok g' ∧
        parse g' "Sum" "1+2+x?3" ⟨true, true⟩ =
          (parse sumGrammar "Sum" "1+2+x?3" ⟨true, true⟩).map
            (Parse.renumber (counterpart sumDefinitions sumDefinitions.reverse) g') := by
  have hb : Grammar.build sumDefinitions = .ok sumGrammar := rfl
  obtain ⟨g', hb', -, hparse⟩ := parse_ignores_rule_order (List.reverse_perm sumDefinitions).symm hb
  exact ⟨hb, by decide +kernel, g', hb', hparse "Sum" "1+2+x?3" ⟨true, true⟩⟩

end Packrat
