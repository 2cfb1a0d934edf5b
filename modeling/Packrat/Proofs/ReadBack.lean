import Packrat.Proofs.BuiltGrammar

/-!
# What the table of a grammar holds

A grammar that was built holds its definitions: the clauses of its rules stand for their bodies, and the
bodies are read back from them.

* `Expr.Each` — a condition on an expression and on all expressions in it.
* `Grammar.Denotes` — a clause that stands for an expression, with the clauses that it consults.
* `Grammar.Defines` — a rule that stands for a definition.
* **`build_defines`**, `findRule?_defines` — the rules of a built grammar stand for its definitions, in
  order, and each is found by its name.
* `Expr.bare`, **`Grammar.Defines.exprAt?_eq`** — the body of a definition is read back from its rule,
  but for the marks of its references.
* **`render_eq`** — a built grammar is written as its definitions are, if no reference carries a mark.
-/

namespace Packrat

/-! ## Conditions on all expressions -/

namespace Expr

mutual

/-- Whether a condition holds of an expression and of all those in it. -/
def Each (P : Expr → Prop) : Expr → Prop
  | .literal text => P (.literal text)
  | .char c => P (.char c)
  | .charClass ranges inverted => P (.charClass ranges inverted)
  | .anyChar => P .anyChar
  | .empty => P .empty
  | .seq items => P (.seq items) ∧ EachItem P items
  | .choice items => P (.choice items) ∧ EachItem P items
  | .repeated item atLeastOne => P (.repeated item atLeastOne) ∧ Each P item
  | .optional item => P (.optional item) ∧ Each P item
  | .reference name => P (.reference name)
  | .ahead item => P (.ahead item) ∧ Each P item
  | .notAhead item => P (.notAhead item) ∧ Each P item

/-- Whether a condition holds of several expressions and of all those in them. -/
def EachItem (P : Expr → Prop) : List Expr → Prop
  | [] => True
  | item :: rest => Each P item ∧ EachItem P rest

end

mutual

/-- A weaker condition. -/
theorem Each.imp {P Q : Expr → Prop} (h : ∀ e, P e → Q e) : (e : Expr) → Each P e → Each Q e
  | .literal _, he | .char _, he | .charClass _ _, he | .anyChar, he | .empty, he
  | .reference _, he => h _ he
  | .seq items, he | .choice items, he => ⟨h _ he.1, EachItem.imp h items he.2⟩
  | .repeated item _, he | .optional item, he | .ahead item, he | .notAhead item, he =>
    ⟨h _ he.1, Each.imp h item he.2⟩

/-- A weaker condition on several expressions. -/
theorem EachItem.imp {P Q : Expr → Prop} (h : ∀ e, P e → Q e) :
    (items : List Expr) → EachItem P items → EachItem Q items
  | [], _ => trivial
  | item :: rest, he => ⟨Each.imp h item he.1, EachItem.imp h rest he.2⟩

end

/-- A condition on several expressions is one on each of them. -/
theorem eachItem_iff {P : Expr → Prop} : ∀ {items : List Expr},
    EachItem P items ↔ ∀ e ∈ items, Each P e
  | [] => ⟨fun _ => nofun, fun _ => trivial⟩
  | item :: rest => by
    rw [List.forall_mem_cons, ← eachItem_iff]
    rfl

/-- A reference, if it is one, carries no mark. -/
def Unmarked : Expr → Prop
  | .reference name => unmarked name = name
  | _ => True

/-- A character class, if it is one, has a range. -/
def Filled : Expr → Prop
  | .charClass ranges _ => ranges ≠ []
  | _ => True

mutual

/-- The expression with the mark removed from each reference that carries one. -/
def bare : Expr → Expr
  | .seq items => .seq (bareItems items)
  | .choice items => .choice (bareItems items)
  | .repeated item atLeastOne => .repeated item.bare atLeastOne
  | .optional item => .optional item.bare
  | .reference name => .reference (unmarked name)
  | .ahead item => .ahead item.bare
  | .notAhead item => .notAhead item.bare
  | .literal text => .literal text
  | .char c => .char c
  | .charClass ranges inverted => .charClass ranges inverted
  | .anyChar => .anyChar
  | .empty => .empty

/-- Several expressions with the marks removed. -/
def bareItems : List Expr → List Expr
  | [] => []
  | item :: rest => item.bare :: bareItems rest

end

mutual

/-- Where no reference carries a mark, there is none to remove. -/
theorem bare_eq : (e : Expr) → e.Each Unmarked → e.bare = e
  | .literal _, _ | .char _, _ | .charClass _ _, _ | .anyChar, _ | .empty, _ => rfl
  | .reference _, h => congrArg Expr.reference h
  | .seq items, h => congrArg Expr.seq (bareItems_eq items h.2)
  | .choice items, h => congrArg Expr.choice (bareItems_eq items h.2)
  | .repeated item atLeastOne, h => congrArg (Expr.repeated · atLeastOne) (bare_eq item h.2)
  | .optional item, h => congrArg Expr.optional (bare_eq item h.2)
  | .ahead item, h => congrArg Expr.ahead (bare_eq item h.2)
  | .notAhead item, h => congrArg Expr.notAhead (bare_eq item h.2)

/-- Where no reference carries a mark in several expressions, there is none to remove. -/
theorem bareItems_eq : (items : List Expr) → EachItem Unmarked items → bareItems items = items
  | [], _ => rfl
  | item :: rest, h => by rw [bareItems, bare_eq item h.1, bareItems_eq rest h.2]

end

end Expr

/-! ## Clauses that stand for expressions -/

namespace Grammar

variable {g : Grammar}

mutual

/-- **Whether a clause stands for an expression.** A reference stands for the rule that is found by its
name. -/
def Denotes (g : Grammar) : Expr → ClauseId → Prop
  | .literal text, id => g.clause? id = some (.literal text)
  | .char c, id => g.clause? id = some (.char c)
  | .charClass ranges inverted, id => g.clause? id = some (.charClass ranges inverted)
  | .anyChar, id => g.clause? id = some .anyChar
  | .empty, id => g.clause? id = some .empty
  | .seq items, id => ∃ ids, g.clause? id = some (.seq ids) ∧ DenotesAll g items ids
  | .choice items, id => ∃ ids, g.clause? id = some (.choice ids) ∧ DenotesAll g items ids
  | .repeated item atLeastOne, id =>
    ∃ child, g.clause? id = some (.repeated child atLeastOne) ∧ Denotes g item child
  | .optional item, id => ∃ child, g.clause? id = some (.optional child) ∧ Denotes g item child
  | .reference name, id => ∃ rule, g.findRule? (unmarked name) = some rule ∧
      g.clause? id = some (.reference (unmarked name) rule.body)
  | .ahead item, id => ∃ child, g.clause? id = some (.ahead child) ∧ Denotes g item child
  | .notAhead item, id => ∃ child, g.clause? id = some (.notAhead child) ∧ Denotes g item child

/-- Whether several clauses stand for several expressions. -/
def DenotesAll (g : Grammar) : List Expr → List ClauseId → Prop
  | [], ids => ids = []
  | item :: rest, ids => ∃ id others, ids = id :: others ∧ Denotes g item id ∧ DenotesAll g rest others

end

/-- Whether a rule stands for a definition. -/
structure Defines (g : Grammar) (definition : Definition) (rule : Rule) : Prop where
  /-- The rule has the name of the definition. -/
  name : rule.name = unmarked definition.name
  /-- It is transparent if the name is marked. -/
  transparent : rule.transparent = isMarked definition.name
  /-- Its body stands for the body of the definition. -/
  denotes : g.Denotes definition.body rule.body
  /-- The clauses of the body are no later than its own. -/
  size_le : definition.body.size ≤ rule.body + 1

end Grammar

/-! ## Lowering -/

mutual

/-- Lowering gives one clause for each expression, the last one for the expression as a whole. -/
theorem lower_length {rule : String} : (e : Expr) → ∀ {base : Nat} {clauses : List Clause}
    {id : ClauseId}, lower rule base e = .ok (clauses, id) →
    clauses.length = e.size ∧ id + 1 = base + e.size
  | .literal _, _, _, _, h | .char _, _, _, _, h | .anyChar, _, _, _, h | .empty, _, _, _, h
  | .reference _, _, _, _, h => by
    cases h
    exact ⟨rfl, rfl⟩
  | .charClass ranges inverted, _, _, _, h => by
    rw [lower] at h
    split at h
    · cases h
    · cases h
      exact ⟨rfl, rfl⟩
  | .seq items, _, _, _, h | .choice items, _, _, _, h => by
    rw [lower] at h
    split at h
    · cases h
    · obtain ⟨⟨clauses, ids⟩, hitems, h⟩ := except_bind_eq_ok.1 h
      cases h
      simp [Expr.size, lowerItems_length items hitems, Nat.add_assoc]
  | .repeated item _, _, _, _, h | .optional item, _, _, _, h | .ahead item, _, _, _, h
  | .notAhead item, _, _, _, h => by
    rw [lower] at h
    obtain ⟨⟨clauses, id⟩, hitem, h⟩ := except_bind_eq_ok.1 h
    cases h
    simp [Expr.size, (lower_length item hitem).1, Nat.add_assoc]

/-- Lowering several expressions gives one clause for each expression. -/
theorem lowerItems_length {rule : String} : (items : List Expr) → ∀ {base : Nat}
    {clauses : List Clause} {ids : List ClauseId}, lowerItems rule base items = .ok (clauses, ids) →
    clauses.length = Expr.sizeItems items
  | [], _, _, _, h => by
    cases h
    rfl
  | item :: rest, _, _, _, h => by
    rw [lowerItems] at h
    obtain ⟨⟨first, id⟩, hitem, h⟩ := except_bind_eq_ok.1 h
    obtain ⟨⟨others, ids⟩, hrest, h⟩ := except_bind_eq_ok.1 h
    cases h
    rw [List.length_append, (lower_length item hitem).1, lowerItems_length rest hrest, Expr.sizeItems]

end

mutual

/-- Only expressions without an empty class are lowered. -/
theorem lower_filled {rule : String} : (e : Expr) → ∀ {base : Nat} {clauses : List Clause}
    {id : ClauseId}, lower rule base e = .ok (clauses, id) → e.Each Expr.Filled
  | .literal _, _, _, _, _ | .char _, _, _, _, _ | .anyChar, _, _, _, _ | .empty, _, _, _, _
  | .reference _, _, _, _, _ => trivial
  | .charClass ranges inverted, _, _, _, h => by
    rw [lower] at h
    rintro rfl
    cases h
  | .seq items, _, _, _, h | .choice items, _, _, _, h => by
    rw [lower] at h
    split at h
    · cases h
    · obtain ⟨⟨clauses, ids⟩, hitems, -⟩ := except_bind_eq_ok.1 h
      exact ⟨trivial, lowerItems_filled items hitems⟩
  | .repeated item _, _, _, _, h | .optional item, _, _, _, h | .ahead item, _, _, _, h
  | .notAhead item, _, _, _, h => by
    rw [lower] at h
    obtain ⟨⟨clauses, id⟩, hitem, -⟩ := except_bind_eq_ok.1 h
    exact ⟨trivial, lower_filled item hitem⟩

/-- Only expressions without an empty class are lowered, also where there are several. -/
theorem lowerItems_filled {rule : String} : (items : List Expr) → ∀ {base : Nat}
    {clauses : List Clause} {ids : List ClauseId}, lowerItems rule base items = .ok (clauses, ids) →
    Expr.EachItem Expr.Filled items
  | [], _, _, _, _ => trivial
  | item :: rest, _, _, _, h => by
    rw [lowerItems] at h
    obtain ⟨⟨first, id⟩, hitem, h⟩ := except_bind_eq_ok.1 h
    obtain ⟨⟨others, ids⟩, hrest, -⟩ := except_bind_eq_ok.1 h
    exact ⟨lower_filled item hitem, lowerItems_filled rest hrest⟩

end

/-- Whether clauses stand in the table of a grammar from an index on, with their references filled
in. -/
def Grammar.Places (g : Grammar) (base : Nat) (clauses : List Clause) : Prop :=
  ∀ i clause, clauses[i]? = some clause →
    ∃ placed, g.clause? (base + i) = some placed ∧ resolve g.rules clause = .ok placed

namespace Grammar.Places

variable {g : Grammar} {base : Nat} {clauses others : List Clause} {clause : Clause}

/-- The first part. -/
theorem left (h : g.Places base (clauses ++ others)) : g.Places base clauses := by
  intro i clause hi
  refine h i clause ?_
  rw [List.getElem?_append_left (List.getElem?_eq_some_iff.1 hi).1, hi]

/-- The second part. -/
theorem right (h : g.Places base (clauses ++ others)) :
    g.Places (base + clauses.length) others := by
  intro i clause hi
  obtain ⟨placed, hplaced, hresolve⟩ := h (clauses.length + i) clause (by
    rw [List.getElem?_append_right (Nat.le_add_right _ _), Nat.add_sub_cancel_left, hi])
  exact ⟨placed, by rwa [Nat.add_assoc], hresolve⟩

/-- The only clause. -/
theorem single (h : g.Places base [clause]) :
    ∃ placed, g.clause? base = some placed ∧ resolve g.rules clause = .ok placed := h 0 clause rfl

/-- The only clause, if there is nothing to fill in. -/
theorem clause_eq (h : g.Places base [clause]) (hclause : resolve g.rules clause = .ok clause) :
    g.clause? base = some clause := by
  obtain ⟨placed, hplaced, hresolve⟩ := h.single
  rw [hclause] at hresolve
  cases hresolve
  exact hplaced

end Grammar.Places

mutual

/-- The clauses that an expression is lowered to stand for it. -/
theorem lower_denotes {g : Grammar} {rule : String} : (e : Expr) → ∀ {base : Nat}
    {clauses : List Clause} {id : ClauseId}, lower rule base e = .ok (clauses, id) →
    g.Places base clauses → g.Denotes e id
  | .literal _, _, _, _, h, hplaces | .char _, _, _, _, h, hplaces | .anyChar, _, _, _, h, hplaces
  | .empty, _, _, _, h, hplaces => by
    cases h
    exact hplaces.clause_eq rfl
  | .charClass ranges inverted, _, _, _, h, hplaces => by
    rw [lower] at h
    split at h
    · cases h
    · cases h
      exact hplaces.clause_eq rfl
  | .reference name, _, _, _, h, hplaces => by
    cases h
    obtain ⟨placed, hplaced, hresolve⟩ := hplaces.single
    rw [resolve] at hresolve
    split at hresolve
    · rename_i rule hfind
      cases hresolve
      exact ⟨rule, hfind, hplaced⟩
    · cases hresolve
  | .seq items, _, _, _, h, hplaces | .choice items, _, _, _, h, hplaces => by
    rw [lower] at h
    split at h
    · cases h
    · obtain ⟨⟨clauses, ids⟩, hitems, h⟩ := except_bind_eq_ok.1 h
      cases h
      exact ⟨ids, hplaces.right.clause_eq rfl, lowerItems_denotes items hitems hplaces.left⟩
  | .repeated item _, _, _, _, h, hplaces | .optional item, _, _, _, h, hplaces
  | .ahead item, _, _, _, h, hplaces | .notAhead item, _, _, _, h, hplaces => by
    rw [lower] at h
    obtain ⟨⟨clauses, id⟩, hitem, h⟩ := except_bind_eq_ok.1 h
    cases h
    exact ⟨id, hplaces.right.clause_eq rfl, lower_denotes item hitem hplaces.left⟩

/-- The clauses that several expressions are lowered to stand for them. -/
theorem lowerItems_denotes {g : Grammar} {rule : String} : (items : List Expr) → ∀ {base : Nat}
    {clauses : List Clause} {ids : List ClauseId}, lowerItems rule base items = .ok (clauses, ids) →
    g.Places base clauses → g.DenotesAll items ids
  | [], _, _, _, h, _ => by
    cases h
    rfl
  | item :: rest, _, _, _, h, hplaces => by
    rw [lowerItems] at h
    obtain ⟨⟨first, id⟩, hitem, h⟩ := except_bind_eq_ok.1 h
    obtain ⟨⟨others, ids⟩, hrest, h⟩ := except_bind_eq_ok.1 h
    cases h
    exact ⟨id, ids, rfl, lower_denotes item hitem hplaces.left,
      lowerItems_denotes rest hrest hplaces.right⟩

end

/-! ## Rules -/

/-- Only new names pass. -/
theorem checkName_eq_ok {earlier : List Rule} {name : String} {transparent : Bool}
    (h : checkName earlier name transparent = .ok ()) : name ∉ earlier.map (·.name) := by
  unfold checkName at h
  split at h
  · rename_i hnone
    intro hmem
    obtain ⟨rule, hrule, rfl⟩ := List.mem_map.1 hmem
    simpa using List.find?_eq_none.1 hnone rule hrule
  · split at h <;> cases h

/-- Lowering definitions adds their clauses to those before them and their rules to those before
them. -/
theorem lowerAll_defines {g : Grammar} : (definitions : List Definition) → ∀ {clauses : List Clause}
    {rules : List Rule} {clauses' : List Clause} {rules' : List Rule},
    (rules.map (·.name)).Nodup → lowerAll clauses rules definitions = .ok (clauses', rules') →
    g.Places 0 clauses' →
    (rules'.map (·.name)).Nodup ∧ clauses <+: clauses' ∧
      ∃ more, rules' = rules ++ more ∧ List.Forall₂ g.Defines definitions more
  | [], _, _, _, _, hnodup, h, _ => by
    cases h
    exact ⟨hnodup, List.prefix_rfl, [], (List.append_nil _).symm, .nil⟩
  | definition :: rest, clauses, rules, clauses', rules', hnodup, h, hplaces => by
    rw [lowerAll] at h
    obtain ⟨⟨⟩, hname, h⟩ := except_bind_eq_ok.1 h
    obtain ⟨⟨more, body⟩, hlower, h⟩ := except_bind_eq_ok.1 h
    have hnew : ((rules ++ [Rule.mk (unmarked definition.name) (isMarked definition.name) body]).map
        (·.name)).Nodup := by
      rw [List.map_append, List.nodup_append]
      refine ⟨hnodup, by simp, ?_⟩
      intro name hmem other hother
      obtain rfl : other = unmarked definition.name := by simpa using hother
      rintro rfl
      exact checkName_eq_ok hname hmem
    obtain ⟨hnodup', ⟨after, rfl⟩, others, rfl, hothers⟩ := lowerAll_defines rest hnew h hplaces
    refine ⟨hnodup', ?_, _ :: others, List.append_assoc _ _ _, .cons ?_ hothers⟩
    · rw [List.append_assoc]
      exact List.prefix_append _ _
    · have hmore : g.Places clauses.length more := by simpa using hplaces.left.right
      refine ⟨rfl, rfl, lower_denotes definition.body hlower hmore, ?_⟩
      have hlength := (lower_length definition.body hlower).2
      rw [hlength]
      exact Nat.le_add_left _ _

/-- Only definitions without an empty class are lowered. -/
theorem lowerAll_filled : (definitions : List Definition) → ∀ {clauses : List Clause}
    {rules : List Rule} {result : List Clause × List Rule},
    lowerAll clauses rules definitions = .ok result →
    ∀ definition ∈ definitions, definition.body.Each Expr.Filled
  | [], _, _, _, _ => nofun
  | definition :: rest, _, _, _, h => by
    rw [lowerAll] at h
    obtain ⟨⟨⟩, -, h⟩ := except_bind_eq_ok.1 h
    obtain ⟨⟨more, body⟩, hlower, h⟩ := except_bind_eq_ok.1 h
    exact List.forall_mem_cons.2 ⟨lower_filled definition.body hlower, lowerAll_filled rest h⟩

/-- The clauses of a built grammar are those that its definitions are lowered to. -/
theorem places_of_resolved {g : Grammar} {lowered : List Clause}
    (h : lowered.mapM (resolve g.rules) = .ok g.clauses.toList) : g.Places 0 lowered := by
  intro i clause hi
  have hpairs := forall₂_of_mapM_eq_ok h
  obtain ⟨hlt, rfl⟩ := List.getElem?_eq_some_iff.1 hi
  have hlt' : i < g.clauses.toList.length := by rwa [← hpairs.length_eq]
  refine ⟨_, ?_, hpairs.get hlt hlt'⟩
  rw [Nat.zero_add, Grammar.clause?, ← Array.getElem?_toList]
  exact List.getElem?_eq_getElem hlt'

/-- Rules with different names are found by their names. -/
theorem findRule?_of_mem {g : Grammar} (hnodup : (g.rules.map (·.name)).Nodup) {rule : Rule}
    (hrule : rule ∈ g.rules) : g.findRule? rule.name = some rule := by
  cases hfind : g.findRule? rule.name with
  | none => exact absurd (List.find?_eq_none.1 hfind rule hrule) (by simp)
  | some other =>
    have hname : other.name = rule.name := by simpa using List.find?_some hfind
    rw [List.inj_on_of_nodup_map hnodup (List.mem_of_find?_eq_some hfind) hrule hname]

/-- Each definition is found by its name, if the rules stand for the definitions and have different
names. -/
theorem findRule?_of_defines {definitions : List Definition} {g : Grammar}
    (hpairs : List.Forall₂ g.Defines definitions g.rules) (hnodup : (g.rules.map (·.name)).Nodup)
    {definition : Definition} (hd : definition ∈ definitions) :
    ∃ rule, g.findRule? (unmarked definition.name) = some rule ∧ g.Defines definition rule := by
  obtain ⟨i, hlt, rfl⟩ := List.getElem_of_mem hd
  have hlt' : i < g.rules.length := by rwa [← hpairs.length_eq]
  have hdefines := hpairs.get hlt hlt'
  refine ⟨g.rules[i], ?_, hdefines⟩
  have hfound := findRule?_of_mem hnodup (List.getElem_mem hlt')
  rwa [show g.rules[i].name = unmarked definitions[i].name from hdefines.name] at hfound

/-- The rule that is found by a name stands for a definition of that name, if the rules stand for the
definitions. -/
theorem exists_defines_of_findRule? {definitions : List Definition} {g : Grammar}
    (hpairs : List.Forall₂ g.Defines definitions g.rules) {name : String} {rule : Rule}
    (hfind : g.findRule? name = some rule) :
    ∃ definition ∈ definitions, unmarked definition.name = name ∧ g.Defines definition rule := by
  obtain ⟨i, hlt, rfl⟩ := List.getElem_of_mem (List.mem_of_find?_eq_some hfind)
  have hlt' : i < definitions.length := by rwa [hpairs.length_eq]
  have hdefines := hpairs.get hlt' hlt
  have hname : g.rules[i].name = name := by simpa using List.find?_some hfind
  exact ⟨definitions[i], List.getElem_mem hlt', hdefines.name.symm.trans hname, hdefines⟩

section build

variable {definitions : List Definition} {g : Grammar} (h : Grammar.build definitions = .ok g)
include h

/-- **The rules of a built grammar stand for its definitions**, in order. -/
theorem build_defines : List.Forall₂ g.Defines definitions g.rules := by
  obtain ⟨lowered, hlower, hresolve, -⟩ := build_eq_ok h
  obtain ⟨-, -, more, hrules, hdefines⟩ :=
    lowerAll_defines definitions (by simp) hlower (places_of_resolved hresolve)
  rwa [hrules]

/-- The rules of a built grammar have different names. -/
theorem build_nodup : (g.rules.map (·.name)).Nodup := by
  obtain ⟨lowered, hlower, hresolve, -⟩ := build_eq_ok h
  exact (lowerAll_defines definitions (by simp) hlower (places_of_resolved hresolve)).1

/-- A built grammar has no empty class. -/
theorem build_filled : ∀ definition ∈ definitions, definition.body.Each Expr.Filled := by
  obtain ⟨lowered, hlower, -⟩ := build_eq_ok h
  exact lowerAll_filled definitions hlower

/-- Each rule of a built grammar is found by its name. -/
theorem findRule?_name {rule : Rule} (hrule : rule ∈ g.rules) : g.findRule? rule.name = some rule :=
  findRule?_of_mem (build_nodup h) hrule

/-- Each definition is found by its name. -/
theorem findRule?_defines {definition : Definition} (hd : definition ∈ definitions) :
    ∃ rule, g.findRule? (unmarked definition.name) = some rule ∧ g.Defines definition rule :=
  findRule?_of_defines (build_defines h) (build_nodup h) hd

/-- The rule that is found by a name stands for a definition of that name. -/
theorem exists_of_findRule? {name : String} {rule : Rule} (hfind : g.findRule? name = some rule) :
    ∃ definition ∈ definitions, unmarked definition.name = name ∧ g.Defines definition rule :=
  exists_defines_of_findRule? (build_defines h) hfind

end build

/-! ## Notation -/

mutual

/-- An expression is read back from a clause that stands for it, without the marks of its references. -/
theorem exprAtFuel?_eq {g : Grammar} : (e : Expr) → ∀ {fuel : Nat} {id : ClauseId},
    g.Denotes e id → e.size ≤ fuel → g.exprAtFuel? fuel id = some e.bare
  | e, 0, _, _, hle => by cases e <;> simp [Expr.size] at hle
  | .literal _, _ + 1, _, h, _ | .char _, _ + 1, _, h, _ | .charClass _ _, _ + 1, _, h, _
  | .anyChar, _ + 1, _, h, _ | .empty, _ + 1, _, h, _ => by
    rw [Grammar.Denotes] at h
    simp [Grammar.exprAtFuel?, h, Expr.bare]
  | .reference name, _ + 1, _, h, _ => by
    obtain ⟨rule, -, hclause⟩ := h
    simp [Grammar.exprAtFuel?, hclause, Expr.bare]
  | .seq items, _ + 1, _, h, hle | .choice items, _ + 1, _, h, hle => by
    obtain ⟨ids, hclause, hitems⟩ := h
    have hread := exprAtFuel?_items items hitems (Nat.le_of_succ_le_succ hle)
    simp [Grammar.exprAtFuel?, hclause, hread, Expr.bare]
  | .repeated item _, _ + 1, _, h, hle | .optional item, _ + 1, _, h, hle
  | .ahead item, _ + 1, _, h, hle | .notAhead item, _ + 1, _, h, hle => by
    obtain ⟨child, hclause, hitem⟩ := h
    have hread := exprAtFuel?_eq item hitem (Nat.le_of_succ_le_succ hle)
    simp [Grammar.exprAtFuel?, hclause, hread, Expr.bare]

/-- Several expressions are read back from clauses that stand for them. -/
theorem exprAtFuel?_items {g : Grammar} : (items : List Expr) → ∀ {fuel : Nat} {ids : List ClauseId},
    g.DenotesAll items ids → Expr.sizeItems items ≤ fuel →
    ids.mapM (g.exprAtFuel? fuel) = some (Expr.bareItems items)
  | [], _, _, h, _ => by
    cases h
    rfl
  | item :: rest, fuel, _, h, hle => by
    obtain ⟨id, ids, rfl, hitem, hrest⟩ := h
    rw [Expr.sizeItems] at hle
    have hread : g.exprAtFuel? fuel id = some item.bare := exprAtFuel?_eq item hitem (by omega)
    have hreads : ids.mapM (g.exprAtFuel? fuel) = some (Expr.bareItems rest) :=
      exprAtFuel?_items rest hrest (by omega)
    simp [hread, hreads, Expr.bareItems]

end

/-- **The body of a definition is read back** from the rule that stands for it. -/
theorem Grammar.Defines.exprAt?_eq {g : Grammar} {definition : Definition} {rule : Rule}
    (h : g.Defines definition rule) : g.exprAt? rule.body = some definition.body.bare :=
  exprAtFuel?_eq definition.body h.denotes h.size_le

/-- A definition in grammar notation, with its line break. -/
def Definition.render (definition : Definition) : List Char :=
  definition.name.toList ++ " <- ".toList ++ definition.body.render ++ " ;\n".toList

/-- A name is its mark and what comes after it. -/
theorem mark_append_unmarked (name : String) :
    (if isMarked name then ['~'] else []) ++ (unmarked name).toList = name.toList := by
  unfold isMarked unmarked
  cases hchars : name.toList with
  | nil => simp [hchars]
  | cons c rest =>
    by_cases hmark : c = '~'
    · subst hmark
      simp
    · simp [hmark, hchars]

/-- A rule is written as the definition that it stands for. -/
theorem Grammar.Defines.renderRule_eq {g : Grammar} {definition : Definition} {rule : Rule}
    (h : g.Defines definition rule) (hunmarked : definition.body.Each Expr.Unmarked) :
    g.renderRule rule = definition.render := by
  have hbody : g.displayChars rule.body = definition.body.render := by
    rw [Grammar.displayChars, h.exprAt?_eq, Expr.bare_eq definition.body hunmarked]
    rfl
  rw [Grammar.renderRule, hbody, h.name, h.transparent, mark_append_unmarked, Definition.render]

/-- **A built grammar is written as its definitions are.** -/
theorem render_eq {definitions : List Definition} {g : Grammar}
    (h : Grammar.build definitions = .ok g)
    (hunmarked : ∀ definition ∈ definitions, definition.body.Each Expr.Unmarked) :
    g.render = String.ofList (definitions.flatMap Definition.render) := by
  have hrules : ∀ {definitions : List Definition} {rules : List Rule},
      List.Forall₂ g.Defines definitions rules →
      (∀ definition ∈ definitions, definition.body.Each Expr.Unmarked) →
      rules.flatMap g.renderRule = definitions.flatMap Definition.render := by
    intro definitions rules hpairs
    induction hpairs with
    | nil => exact fun _ => rfl
    | cons hdefines _ ih =>
      intro hall
      rw [List.flatMap_cons, List.flatMap_cons, ih fun d hd => hall d (List.mem_cons_of_mem _ hd),
        hdefines.renderRule_eq (hall _ List.mem_cons_self)]
  rw [Grammar.render, hrules (build_defines h) hunmarked]

end Packrat
