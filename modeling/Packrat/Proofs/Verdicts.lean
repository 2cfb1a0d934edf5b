import Mathlib.Data.List.Induction
import Packrat.Proofs.RuleOrder

/-!
# Which error a list of definitions is refused with

Definitions are looked at in three passes: one definition after another, then all references, then all
chains of references. The first thing that is wrong decides.

* `Expr.preorder`, `Expr.firstEmpty?`, `Expr.names` — the expressions of a body in order, the first of
  them that is a construct without elements, and the rules that they refer to.
* `Flaw`, `Flawless` — what is wrong with a definition after those before it; definitions none of
  which has a flaw.
* `Grounded` — a chain of references that comes to an expression of another kind.
* **`Refused`**, `Accepted` — the error that definitions are refused with; definitions that have none.
* `lower_lowers`, `lowerAll_flawed`, `mapM_resolve_undefined`, `checkCycles_cyclic` — the passes.
* **`build_eq_error_iff`** — definitions are refused with exactly that error, and otherwise there is a
  grammar.
-/

namespace Packrat

/-! ## The expressions of a body -/

namespace Expr

mutual

/-- An expression and all expressions in it, each before its parts. -/
def preorder : Expr → List Expr
  | .literal text => [.literal text]
  | .char c => [.char c]
  | .charClass ranges inverted => [.charClass ranges inverted]
  | .anyChar => [.anyChar]
  | .empty => [.empty]
  | .seq items => .seq items :: preorderItems items
  | .choice items => .choice items :: preorderItems items
  | .repeated item atLeastOne => .repeated item atLeastOne :: item.preorder
  | .optional item => .optional item :: item.preorder
  | .reference name => [.reference name]
  | .ahead item => .ahead item :: item.preorder
  | .notAhead item => .notAhead item :: item.preorder

/-- Several expressions and all expressions in them, each before its parts. -/
def preorderItems : List Expr → List Expr
  | [] => []
  | item :: rest => item.preorder ++ preorderItems rest

end

/-- The kind of construct without elements that an expression is, if it is one. -/
def emptyKind? : Expr → Option EmptyKind
  | .seq [] => some .sequence
  | .choice [] => some .choice
  | .charClass [] _ => some .characterClass
  | _ => none

/-- The first construct without elements in an expression. -/
def firstEmpty? (e : Expr) : Option EmptyKind := e.preorder.findSome? emptyKind?

/-- The name of the rule that an expression refers to, if it is a reference. -/
def referred? : Expr → Option String
  | .reference name => some (unmarked name)
  | _ => none

/-- The names of the rules that an expression refers to, from left to right. -/
def names (e : Expr) : List String := e.preorder.filterMap referred?

end Expr

/-! ## What is wrong with definitions -/

/-- **What is wrong with a definition after earlier ones**: its name is taken, with another mark or with
the same, or else there is a construct without elements in it. -/
inductive Flaw (earlier : List Definition) (definition : Definition) : GrammarError → Prop where
  /-- An earlier definition has the name and another mark. -/
  | conflict {other : Definition} (hother : other ∈ earlier)
      (hname : unmarked other.name = unmarked definition.name)
      (hmark : isMarked other.name ≠ isMarked definition.name) :
      Flaw earlier definition (.transparencyConflict (unmarked definition.name))
  /-- An earlier definition has the name and the mark. -/
  | duplicate {other : Definition} (hother : other ∈ earlier)
      (hname : unmarked other.name = unmarked definition.name)
      (hmark : isMarked other.name = isMarked definition.name) :
      Flaw earlier definition (.duplicateRule (unmarked definition.name))
  /-- The name is new, but there is a construct without elements. -/
  | empty {kind : EmptyKind}
      (hnew : ∀ other ∈ earlier, unmarked other.name ≠ unmarked definition.name)
      (hempty : definition.body.firstEmpty? = some kind) :
      Flaw earlier definition (.emptyClause (unmarked definition.name) kind)

/-- Whether no definition has a flaw after those before it. -/
def Flawless (definitions : List Definition) : Prop :=
  ∀ before definition after, definitions = before ++ definition :: after →
    ∀ e, ¬Flaw before definition e

/-- Whether one of the definitions has a name, but for its mark. -/
def Defined (definitions : List Definition) (name : String) : Prop :=
  ∃ definition ∈ definitions, unmarked definition.name = name

/-- The names that definitions refer to, in order. -/
def namesOf (definitions : List Definition) : List String := definitions.flatMap (·.body.names)

/-- **Whether the chain of references from an expression reaches one of another kind.** -/
inductive Grounded (definitions : List Definition) : Expr → Prop where
  /-- An expression that is no reference. -/
  | here {e : Expr} (hkind : ∀ name, e ≠ .reference name) : Grounded definitions e
  /-- A reference to a definition. -/
  | through {name : String} {definition : Definition} (hd : definition ∈ definitions)
      (hname : unmarked definition.name = unmarked name) (h : Grounded definitions definition.body) :
      Grounded definitions (.reference name)

/-- **The error that definitions are refused with.** The first flaw comes before all undefined names,
and the first undefined name before all chains that go round in circles. -/
inductive Refused : List Definition → GrammarError → Prop where
  /-- There are none. -/
  | noRules : Refused [] .noRules
  /-- A definition has a flaw, and those before it have none. -/
  | flawed {before after : List Definition} {definition : Definition} {e : GrammarError}
      (hbefore : Flawless before) (hflaw : Flaw before definition e) :
      Refused (before ++ definition :: after) e
  /-- A name is not defined, and those before it are. -/
  | undefined {definitions : List Definition} {before after : List String} {name : String}
      (hflawless : Flawless definitions) (hsplit : namesOf definitions = before ++ name :: after)
      (hbefore : ∀ other ∈ before, Defined definitions other) (hname : ¬Defined definitions name) :
      Refused definitions (.undefinedRule name)
  /-- The chain of a definition reaches nothing but references, and those before it do. -/
  | cyclic {definitions before after : List Definition} {definition : Definition}
      (hflawless : Flawless definitions) (hdefined : ∀ name ∈ namesOf definitions, Defined definitions name)
      (hsplit : definitions = before ++ definition :: after)
      (hbefore : ∀ other ∈ before, Grounded definitions other.body)
      (hcycle : ¬Grounded definitions definition.body) :
      Refused definitions (.cyclicReference (unmarked definition.name))

/-- Whether there is nothing wrong with definitions. -/
structure Accepted (definitions : List Definition) : Prop where
  /-- There are some. -/
  nonempty : definitions ≠ []
  /-- None has a flaw. -/
  flawless : Flawless definitions
  /-- All names are defined. -/
  defined : ∀ name ∈ namesOf definitions, Defined definitions name
  /-- All chains reach an expression that is no reference. -/
  grounded : ∀ definition ∈ definitions, Grounded definitions definition.body

/-- One more definition has no flaw if those before it have none and it has none after them. -/
theorem flawless_concat {definitions : List Definition} {last : Definition} :
    Flawless (definitions ++ [last]) ↔ Flawless definitions ∧ ∀ e, ¬Flaw definitions last e := by
  constructor
  · intro h
    refine ⟨fun before definition after hsplit => ?_, h definitions last [] rfl⟩
    exact h before definition (after ++ [last]) (by rw [hsplit, List.append_assoc, List.cons_append])
  · rintro ⟨h, hlast⟩ before definition after hsplit
    rcases List.eq_nil_or_concat after with rfl | ⟨after, other, rfl⟩
    · obtain ⟨rfl, heq⟩ := List.append_inj' hsplit rfl
      cases heq
      exact hlast
    · rw [List.concat_eq_append, ← List.cons_append, ← List.append_assoc] at hsplit
      exact h before definition after (List.append_inj' hsplit rfl).1

/-- Definitions without flaws, or the first one that has a flaw. -/
theorem flawless_or (definitions : List Definition) : Flawless definitions ∨
    ∃ before definition after e, definitions = before ++ definition :: after ∧ Flawless before ∧
      Flaw before definition e := by
  induction definitions using List.reverseRecOn with
  | nil => exact .inl fun before _ _ hsplit => by simp at hsplit
  | append_singleton definitions last ih =>
    rcases ih with hflawless | ⟨before, definition, after, e, rfl, hbefore, hflaw⟩
    · by_cases hlast : ∃ e, Flaw definitions last e
      · obtain ⟨e, hflaw⟩ := hlast
        exact .inr ⟨definitions, last, [], e, rfl, hflawless, hflaw⟩
      · exact .inl (flawless_concat.2 ⟨hflawless, not_exists.1 hlast⟩)
    · exact .inr ⟨before, definition, after ++ [last], e, by simp, hbefore, hflaw⟩

/-- **Definitions are accepted or refused.** -/
theorem accepted_or_refused (definitions : List Definition) :
    Accepted definitions ∨ ∃ e, Refused definitions e := by
  by_cases hne : definitions = []
  · subst hne
    exact .inr ⟨_, .noRules⟩
  · rcases flawless_or definitions with hflawless | ⟨before, definition, after, e, rfl, hbefore, hflaw⟩
    · rcases exists_first fun name (_ : name ∈ namesOf definitions) =>
        (em (Defined definitions name)).symm with
        hdefined | ⟨before, name, after, hsplit, hbefore, hname⟩
      · rcases exists_first fun definition (_ : definition ∈ definitions) =>
          (em (Grounded definitions definition.body)).symm with
          hgrounded | ⟨before, definition, after, hsplit, hbefore, hcycle⟩
        · exact .inl ⟨hne, hflawless, hdefined, hgrounded⟩
        · exact .inr ⟨_, .cyclic hflawless hdefined hsplit hbefore hcycle⟩
      · exact .inr ⟨_, .undefined hflawless hsplit hbefore hname⟩
    · exact .inr ⟨e, .flawed hbefore hflaw⟩

/-! ## The first pass: one definition after another -/

/-- The name that a clause carries, if it is a reference. -/
def Clause.referred? : Clause → Option String
  | .reference name _ => some name
  | _ => none

/-- **What lowering expressions gives**: the error of the first construct without elements, or clauses
whose references carry the names that the expressions refer to, in order. -/
def Lowers {α : Type} (rule : String) (expressions : List Expr)
    (result : Except GrammarError (List Clause × α)) : Prop :=
  match expressions.findSome? Expr.emptyKind? with
  | some kind => result = .error (.emptyClause rule kind)
  | none => ∃ clauses a, result = .ok (clauses, a) ∧
      clauses.filterMap Clause.referred? = expressions.filterMap Expr.referred?

namespace Lowers

variable {α β : Type} {rule : String} {expressions others : List Expr}
  {result : Except GrammarError (List Clause × α)}

/-- A construct without elements is the first one. -/
theorem refused {e : Expr} {kind : EmptyKind} (h : e.emptyKind? = some kind) (expressions : List Expr) :
    Lowers rule (e :: expressions) (.error (.emptyClause rule kind) :
      Except GrammarError (List Clause × α)) := by
  rw [Lowers, List.findSome?_cons, h]

/-- Nothing. -/
theorem nil (a : α) : Lowers rule [] (.ok ([], a)) := ⟨[], a, rfl, rfl⟩

/-- An expression of its own. -/
theorem single {e : Expr} (hkind : e.emptyKind? = none) {clause : Clause}
    (href : clause.referred? = e.referred?) (a : α) : Lowers rule [e] (.ok ([clause], a)) := by
  rw [Lowers, List.findSome?_cons, hkind]
  refine ⟨[clause], a, rfl, ?_⟩
  simp only [List.filterMap_cons, href, List.filterMap_nil]

/-- An expression and its parts. -/
theorem above {e : Expr} (h : Lowers rule expressions result) (make : α → Clause)
    (hmake : ∀ a, (make a).referred? = none) (hkind : e.emptyKind? = none) (href : e.referred? = none)
    (base : Nat) :
    Lowers rule (e :: expressions)
      (result >>= fun lowered => .ok (lowered.1 ++ [make lowered.2], base + lowered.1.length)) := by
  unfold Lowers at h ⊢
  rw [List.findSome?_cons, hkind]
  cases hempty : expressions.findSome? Expr.emptyKind? with
  | some kind =>
    rw [hempty] at h
    rw [h]
    rfl
  | none =>
    rw [hempty] at h
    obtain ⟨clauses, a, rfl, hnames⟩ := h
    refine ⟨clauses ++ [make a], base + clauses.length, rfl, ?_⟩
    rw [List.filterMap_append, hnames, List.filterMap_cons, hmake, List.filterMap_nil,
      List.append_nil, List.filterMap_cons, href]

/-- Expressions after others. -/
theorem append {γ : Type} {next : List Clause → Except GrammarError (List Clause × β)}
    (h : Lowers rule expressions result) (h' : ∀ clauses, Lowers rule others (next clauses))
    (both : α → β → γ) :
    Lowers rule (expressions ++ others)
      (result >>= fun lowered => next lowered.1 >>= fun more =>
        .ok (lowered.1 ++ more.1, both lowered.2 more.2)) := by
  unfold Lowers at h
  rw [Lowers, List.findSome?_append]
  cases hempty : expressions.findSome? Expr.emptyKind? with
  | some kind =>
    rw [hempty] at h
    rw [h]
    rfl
  | none =>
    rw [hempty] at h
    obtain ⟨clauses, a, rfl, hnames⟩ := h
    have hnext := h' clauses
    unfold Lowers at hnext
    rw [Option.none_or]
    show match others.findSome? Expr.emptyKind? with
      | some kind => (next clauses >>= _) = _
      | none => ∃ lowered c, (next clauses >>= _) = _ ∧ _
    cases hempty' : others.findSome? Expr.emptyKind? with
    | some kind =>
      rw [hempty'] at hnext
      rw [hnext]
      rfl
    | none =>
      rw [hempty'] at hnext
      obtain ⟨more, b, hmore, hnames'⟩ := hnext
      refine ⟨clauses ++ more, both a b, ?_, ?_⟩
      · rw [hmore]
        rfl
      · rw [List.filterMap_append, List.filterMap_append, hnames, hnames']

end Lowers

mutual

/-- Lowering an expression. -/
theorem lower_lowers (rule : String) : (e : Expr) → ∀ base, Lowers rule e.preorder (lower rule base e)
  | .literal _, base | .char _, base | .anyChar, base | .empty, base | .reference _, base =>
    .single rfl rfl base
  | .charClass [] inverted, _ => .refused rfl []
  | .charClass (_ :: _) inverted, base => .single rfl rfl base
  | .seq [], _ | .choice [], _ => .refused rfl []
  | .seq (item :: rest), base => by
    rw [lower, Expr.preorder]
    exact (lowerItems_lowers rule (item :: rest) base).above .seq (fun _ => rfl) rfl rfl base
  | .choice (item :: rest), base => by
    rw [lower, Expr.preorder]
    exact (lowerItems_lowers rule (item :: rest) base).above .choice (fun _ => rfl) rfl rfl base
  | .repeated item atLeastOne, base => by
    rw [lower, Expr.preorder]
    exact (lower_lowers rule item base).above (.repeated · atLeastOne) (fun _ => rfl) rfl rfl base
  | .optional item, base => by
    rw [lower, Expr.preorder]
    exact (lower_lowers rule item base).above .optional (fun _ => rfl) rfl rfl base
  | .ahead item, base => by
    rw [lower, Expr.preorder]
    exact (lower_lowers rule item base).above .ahead (fun _ => rfl) rfl rfl base
  | .notAhead item, base => by
    rw [lower, Expr.preorder]
    exact (lower_lowers rule item base).above .notAhead (fun _ => rfl) rfl rfl base

/-- Lowering several expressions. -/
theorem lowerItems_lowers (rule : String) : (items : List Expr) → ∀ base,
    Lowers rule (Expr.preorderItems items) (lowerItems rule base items)
  | [], _ => .nil []
  | item :: rest, base =>
    (lower_lowers rule item base).append (fun first => lowerItems_lowers rule rest (base + first.length))
      List.cons

end

/-- The name of a definition and whether it is marked. -/
def Definition.heading (definition : Definition) : String × Bool :=
  (unmarked definition.name, isMarked definition.name)

/-- The name of a rule and whether it is transparent. -/
def Rule.heading (rule : Rule) : String × Bool := (rule.name, rule.transparent)

/-- Rules with the headings of definitions have their names. -/
theorem names_of_headings {rules : List Rule} {definitions : List Definition}
    (h : rules.map Rule.heading = definitions.map Definition.heading) :
    rules.map (·.name) = definitions.map (unmarked ·.name) := by
  have hfirst := congrArg (List.map Prod.fst) h
  rwa [List.map_map, List.map_map] at hfirst

/-- A name that no earlier definition has is the name of no rule. -/
theorem notMem_of_new {rules : List Rule} {earlier : List Definition}
    (hheadings : rules.map Rule.heading = earlier.map Definition.heading) {name : String}
    (hnew : ∀ other ∈ earlier, unmarked other.name ≠ name) : name ∉ rules.map (·.name) := by
  rw [names_of_headings hheadings]
  intro hmem
  obtain ⟨other, hother, hname⟩ := List.mem_map.1 hmem
  exact hnew other hother hname

/-- A definition without a flaw has a new name. -/
theorem new_of_not_flaw {earlier : List Definition} {definition : Definition}
    (h : ∀ e, ¬Flaw earlier definition e) :
    ∀ other ∈ earlier, unmarked other.name ≠ unmarked definition.name := by
  intro other hother hname
  by_cases hmark : isMarked other.name = isMarked definition.name
  · exact h _ (.duplicate hother hname hmark)
  · exact h _ (.conflict hother hname hmark)

/-- Definitions without flaws have different names. -/
theorem Flawless.nodup {definitions : List Definition} (h : Flawless definitions) :
    (definitions.map (unmarked ·.name)).Nodup := by
  induction definitions using List.reverseRecOn with
  | nil => exact .nil
  | append_singleton definitions last ih =>
    obtain ⟨hinit, hlast⟩ := flawless_concat.1 h
    rw [List.map_append, List.map_singleton, ← List.concat_eq_append, List.nodup_concat]
    refine ⟨fun hmem => ?_, ih hinit⟩
    obtain ⟨other, hother, hname⟩ := List.mem_map.1 hmem
    exact new_of_not_flaw hlast other hother hname

/-- **The first pass, without flaws**: all definitions are lowered, in order. -/
theorem lowerAll_flawless {definitions : List Definition} (h : Flawless definitions) :
    ∃ clauses rules, lowerAll [] [] definitions = .ok (clauses, rules) ∧
      rules.map Rule.heading = definitions.map Definition.heading ∧
      clauses.filterMap Clause.referred? = namesOf definitions := by
  induction definitions using List.reverseRecOn with
  | nil => exact ⟨[], [], rfl, rfl, rfl⟩
  | append_singleton definitions last ih =>
    obtain ⟨hinit, hlast⟩ := flawless_concat.1 h
    obtain ⟨clauses, rules, hlower, hheadings, hnames⟩ := ih hinit
    have hnew := notMem_of_new hheadings (new_of_not_flaw hlast)
    have hfilled : last.body.preorder.findSome? Expr.emptyKind? = none := by
      cases hempty : last.body.preorder.findSome? Expr.emptyKind? with
      | none => rfl
      | some kind => exact absurd (.empty (new_of_not_flaw hlast) hempty) (hlast _)
    have hlowers := lower_lowers (unmarked last.name) last.body clauses.length
    rw [Lowers, hfilled] at hlowers
    obtain ⟨more, body, hbody, hmore⟩ := hlowers
    refine ⟨clauses ++ more, rules ++ [⟨unmarked last.name, isMarked last.name, body⟩], ?_, ?_, ?_⟩
    · rw [lowerAll_append, hlower]
      show lowerAll clauses rules [last] = _
      rw [lowerAll]
      exact except_bind_eq_ok.2 ⟨(), checkName_of_notMem _ hnew,
        except_bind_eq_ok.2 ⟨(more, body), hbody, rfl⟩⟩
    · rw [List.map_append, List.map_append, hheadings]
      rfl
    · rw [List.filterMap_append, hnames, hmore, namesOf, namesOf, List.flatMap_append,
        List.flatMap_singleton]
      rfl

/-- A name that an earlier definition has is refused for its mark. -/
theorem checkName_taken {earlier : List Definition} {rules : List Rule}
    (hheadings : rules.map Rule.heading = earlier.map Definition.heading)
    (hnodup : (earlier.map (unmarked ·.name)).Nodup) {other : Definition} (hother : other ∈ earlier)
    (transparent : Bool) :
    checkName rules (unmarked other.name) transparent =
      if isMarked other.name != transparent then .error (.transparencyConflict (unmarked other.name))
      else .error (.duplicateRule (unmarked other.name)) := by
  have hmem : other.heading ∈ rules.map Rule.heading := by
    rw [hheadings]
    exact List.mem_map_of_mem hother
  obtain ⟨rule, hrule, hheading⟩ := List.mem_map.1 hmem
  obtain ⟨hname, hmark⟩ := Prod.mk.inj hheading
  rw [← names_of_headings hheadings] at hnodup
  have hfind : rules.find? (·.name == rule.name) = some rule :=
    findRule?_of_mem (g := ⟨#[], rules⟩) hnodup hrule
  rw [← hname, ← hmark, checkName, hfind]
  rfl

/-- **The first pass, with a flaw**: it ends with the error of the first definition that has one. -/
theorem lowerAll_flawed {before after : List Definition} {definition : Definition} {e : GrammarError}
    (hbefore : Flawless before) (hflaw : Flaw before definition e) :
    lowerAll [] [] (before ++ definition :: after) = .error e := by
  obtain ⟨clauses, rules, hlower, hheadings, -⟩ := lowerAll_flawless hbefore
  rw [lowerAll_append, hlower]
  show lowerAll clauses rules (definition :: after) = .error e
  rw [lowerAll]
  cases hflaw with
  | conflict hother hname hmark =>
    rw [← hname, checkName_taken hheadings hbefore.nodup hother, if_pos (bne_iff_ne.2 hmark)]
    rfl
  | duplicate hother hname hmark =>
    rw [← hname, checkName_taken hheadings hbefore.nodup hother, if_neg (by simp [hmark])]
    rfl
  | empty hnew hempty =>
    have hlowers := lower_lowers (unmarked definition.name) definition.body clauses.length
    rw [Lowers, show definition.body.preorder.findSome? Expr.emptyKind? = _ from hempty] at hlowers
    rw [checkName_of_notMem _ (notMem_of_new hheadings hnew)]
    show (lower (unmarked definition.name) clauses.length definition.body >>= _) = _
    rw [hlowers]
    rfl

/-! ## The second pass: references -/

section references

variable {rules : List Rule} {clause : Clause} {name : String}

/-- A clause is filled in if the name that it carries, if any, is that of a rule. -/
theorem exists_resolve (h : ∀ name, clause.referred? = some name → name ∈ rules.map (·.name)) :
    ∃ placed, resolve rules clause = .ok placed := by
  cases clause with
  | reference name target => exact exists_resolve_reference (h name rfl) target
  | _ => exact ⟨_, rfl⟩

/-- A clause that carries another name is refused. -/
theorem resolve_undefined (hclause : clause.referred? = some name) (h : name ∉ rules.map (·.name)) :
    resolve rules clause = .error (.undefinedRule name) := by
  cases clause with
  | reference other target =>
    cases hclause
    have hnone : rules.find? (·.name == name) = none := by
      refine List.find?_eq_none.2 fun rule hrule heq => h ?_
      exact List.mem_map.2 ⟨rule, hrule, beq_iff_eq.1 heq⟩
    rw [resolve, hnone]
    rfl
  | _ => cases hclause

/-- **The second pass, with an undefined name**: it ends with the first one. -/
theorem mapM_resolve_undefined (hname : name ∉ rules.map (·.name)) {after : List String} :
    ∀ {clauses : List Clause} {before : List String},
    clauses.filterMap Clause.referred? = before ++ name :: after →
    (∀ other ∈ before, other ∈ rules.map (·.name)) →
    clauses.mapM (resolve rules) = .error (.undefinedRule name)
  | [], before, hsplit, _ => by simp at hsplit
  | clause :: clauses, before, hsplit, hbefore => by
    rw [List.mapM_cons]
    cases hclause : clause.referred? with
    | none =>
      rw [List.filterMap_cons_none hclause] at hsplit
      obtain ⟨placed, hplaced⟩ : ∃ placed, resolve rules clause = .ok placed :=
        exists_resolve (by simp [hclause])
      rw [hplaced]
      show (clauses.mapM (resolve rules) >>= _) = _
      rw [mapM_resolve_undefined hname hsplit hbefore]
      rfl
    | some other =>
      rw [List.filterMap_cons_some hclause] at hsplit
      cases before with
      | nil =>
        cases hsplit
        rw [resolve_undefined hclause hname]
        rfl
      | cons first before =>
        obtain ⟨rfl, hrest⟩ := List.cons.inj hsplit
        obtain ⟨hother, hbefore⟩ := List.forall_mem_cons.1 hbefore
        obtain ⟨placed, hplaced⟩ : ∃ placed, resolve rules clause = .ok placed := by
          refine exists_resolve fun _ heq => ?_
          cases hclause.symm.trans heq
          exact hother
        rw [hplaced]
        show (clauses.mapM (resolve rules) >>= _) = _
        rw [mapM_resolve_undefined hname hrest hbefore]
        rfl

end references

/-- Names are defined if they are those of rules. -/
theorem mem_names_iff_defined {rules : List Rule} {definitions : List Definition}
    (hheadings : rules.map Rule.heading = definitions.map Definition.heading) {name : String} :
    name ∈ rules.map (·.name) ↔ Defined definitions name := by
  rw [names_of_headings hheadings, List.mem_map]
  rfl

/-- **The first two passes, with nothing wrong**: there is a table for the definitions. -/
theorem exists_lays {definitions : List Definition} (hflawless : Flawless definitions)
    (hdefined : ∀ name ∈ namesOf definitions, Defined definitions name) :
    ∃ g : Grammar, g.Lays definitions := by
  obtain ⟨lowered, rules, hlower, hheadings, hnames⟩ := lowerAll_flawless hflawless
  cases hresolve : lowered.mapM (resolve rules) with
  | ok resolved => exact ⟨⟨resolved.toArray, rules⟩, lowered, hlower, hresolve⟩
  | error e =>
    obtain ⟨clause, hclause, herror⟩ := exists_of_mapM_eq_error hresolve
    obtain ⟨placed, hplaced⟩ : ∃ placed, resolve rules clause = .ok placed := by
      refine exists_resolve fun name hname => (mem_names_iff_defined hheadings).2 (hdefined name ?_)
      rw [← hnames]
      exact List.mem_filterMap.2 ⟨clause, hclause, hname⟩
    cases hplaced.symm.trans herror

/-! ## The third pass: chains of references -/

section chains

variable {g : Grammar} {definitions : List Definition}
  (hpairs : List.Forall₂ g.Defines definitions g.rules)
include hpairs

/-- A chain of clauses that ends is one of expressions. The induction follows the chain. -/
theorem grounded_of_endsInBody : ∀ {fuel : Nat} {e : Expr} {id : ClauseId}, g.Denotes e id →
    endsInBody g.clauses fuel id = true → Grounded definitions e
  | 0, _, _, _, h => by cases h
  | fuel + 1, e, id, hdenotes, h => by
    cases e with
    | reference name =>
      obtain ⟨rule, hfind, hclause⟩ := hdenotes
      obtain ⟨definition, hd, hname, hdefines⟩ := exists_defines_of_findRule? hpairs hfind
      exact .through hd hname
        (grounded_of_endsInBody hdefines.denotes (endsInBody_target hclause h))
    | _ => exact .here nofun

omit hpairs in
/-- A clause that stands for an expression that is no reference is none either. -/
theorem endsInBody_of_denotes {e : Expr} (hkind : ∀ name, e ≠ .reference name) {id : ClauseId}
    (h : g.Denotes e id) : endsInBody g.clauses 1 id = true := by
  cases e with
  | reference name => exact absurd rfl (hkind name)
  | seq items | choice items =>
    obtain ⟨ids, hclause, -⟩ := h
    rw [endsInBody, ← Grammar.clause?, hclause]
  | repeated item | optional item | ahead item | notAhead item =>
    obtain ⟨child, hclause, -⟩ := h
    rw [endsInBody, ← Grammar.clause?, hclause]
  | _ =>
    rw [Grammar.Denotes] at h
    rw [endsInBody, ← Grammar.clause?, h]

/-- A chain of expressions that ends is one of clauses. -/
theorem endsInBody_of_grounded (hnodup : (g.rules.map (·.name)).Nodup) {e : Expr}
    (h : Grounded definitions e) :
    ∀ {id : ClauseId}, g.Denotes e id → ∃ fuel, endsInBody g.clauses fuel id = true := by
  induction h with
  | here hkind => exact fun hdenotes => ⟨1, endsInBody_of_denotes hkind hdenotes⟩
  | @through name definition hd hname _ ih =>
    intro id hdenotes
    obtain ⟨rule, hfind, hclause⟩ := hdenotes
    obtain ⟨other, hfind', hdefines⟩ := findRule?_of_defines hpairs hnodup hd
    rw [hname, hfind] at hfind'
    cases hfind'
    obtain ⟨fuel, hfuel⟩ := ih hdefines.denotes
    refine ⟨fuel + 1, ?_⟩
    rw [endsInBody, ← Grammar.clause?, hclause]
    exact hfuel

/-- **The check of a rule** says whether the chain of its definition ends. -/
theorem endsInBody_iff_grounded (hnodup : (g.rules.map (·.name)).Nodup) {definition : Definition}
    {rule : Rule} (h : g.Defines definition rule) :
    endsInBody g.clauses (g.clauses.size + 1) rule.body = true ↔
      Grounded definitions definition.body := by
  refine ⟨grounded_of_endsInBody hpairs h.denotes, fun hgrounded => ?_⟩
  obtain ⟨fuel, hfuel⟩ := endsInBody_of_grounded hpairs hnodup hgrounded h.denotes
  exact endsInBody_size hfuel

/-- **The third pass, with a chain that goes round in a circle**: it ends with the first one. -/
theorem checkCycles_cyclic (hnodup : (g.rules.map (·.name)).Nodup) {definition : Definition}
    (hcycle : ¬Grounded definitions definition.body) {after : List Definition} :
    ∀ {before : List Definition} {rules : List Rule},
    List.Forall₂ g.Defines (before ++ definition :: after) rules →
    (∀ other ∈ before, Grounded definitions other.body) →
    checkCycles g.clauses rules = .error (.cyclicReference (unmarked definition.name))
  | [], _, .cons hdefines _, _ => by
    rw [checkCycles, if_neg fun hends => hcycle ((endsInBody_iff_grounded hpairs hnodup hdefines).1 hends),
      hdefines.name]
    rfl
  | _ :: _, _, .cons hdefines hrest, hbefore => by
    obtain ⟨hfirst, hbefore⟩ := List.forall_mem_cons.1 hbefore
    rw [checkCycles, if_pos ((endsInBody_iff_grounded hpairs hnodup hdefines).2 hfirst)]
    exact checkCycles_cyclic hnodup hcycle hrest hbefore

/-- The third pass, with nothing wrong. -/
theorem checkCycles_grounded (hnodup : (g.rules.map (·.name)).Nodup)
    (hgrounded : ∀ definition ∈ definitions, Grounded definitions definition.body) :
    checkCycles g.clauses g.rules = .ok () := by
  refine checkCycles_of_forall fun rule hrule => ?_
  obtain ⟨definition, hd, -, hdefines⟩ :=
    exists_defines_of_findRule? hpairs (findRule?_of_mem hnodup hrule)
  exact (endsInBody_iff_grounded hpairs hnodup hdefines).2 (hgrounded definition hd)

end chains

/-! ## All passes -/

section build

variable {definitions : List Definition}

/-- After the first two passes only the third is left. -/
theorem build_of_lays {g : Grammar} (hne : definitions ≠ []) (h : g.Lays definitions) :
    Grammar.build definitions = (checkCycles g.clauses g.rules >>= fun _ => .ok g) := by
  obtain ⟨lowered, hlower, hresolve⟩ := h
  rw [Grammar.build, List.isEmpty_eq_false_iff.2 hne, hlower]
  show (lowered.mapM (resolve g.rules) >>= _) = _
  rw [hresolve]
  rfl

/-- The rules of a table stand for its definitions. -/
theorem Grammar.Lays.defines {g : Grammar} (h : g.Lays definitions) :
    List.Forall₂ g.Defines definitions g.rules ∧ (g.rules.map (·.name)).Nodup := by
  obtain ⟨lowered, hlower, hresolve⟩ := h
  obtain ⟨hnodup, -, more, hrules, hpairs⟩ :=
    lowerAll_defines definitions (by simp) hlower (places_of_resolved hresolve)
  rw [hrules]
  exact ⟨hpairs, hrules ▸ hnodup⟩

/-- Definitions with nothing wrong make a grammar. -/
theorem build_accepted (h : Accepted definitions) : ∃ g, Grammar.build definitions = .ok g := by
  obtain ⟨g, hlays⟩ := exists_lays h.flawless h.defined
  obtain ⟨hpairs, hnodup⟩ := hlays.defines
  refine ⟨g, ?_⟩
  rw [build_of_lays h.nonempty hlays, checkCycles_grounded hpairs hnodup h.grounded]
  rfl

/-- Definitions that are refused make none, and the error is the one that they are refused with. -/
theorem build_refused {e : GrammarError} (h : Refused definitions e) :
    Grammar.build definitions = .error e := by
  cases h with
  | noRules => rfl
  | flawed hbefore hflaw =>
    rw [Grammar.build, List.isEmpty_eq_false_iff.2 (by simp), lowerAll_flawed hbefore hflaw]
    rfl
  | undefined hflawless hsplit hbefore hname =>
    have hne : definitions ≠ [] := by
      rintro rfl
      simp [namesOf] at hsplit
    obtain ⟨lowered, rules, hlower, hheadings, hnames⟩ := lowerAll_flawless hflawless
    rw [Grammar.build, List.isEmpty_eq_false_iff.2 hne, hlower]
    show (lowered.mapM (resolve rules) >>= _) = _
    rw [mapM_resolve_undefined (fun hmem => hname ((mem_names_iff_defined hheadings).1 hmem))
      (hnames.trans hsplit) fun other hother => (mem_names_iff_defined hheadings).2 (hbefore other hother)]
    rfl
  | cyclic hflawless hdefined hsplit hbefore hcycle =>
    obtain ⟨g, hlays⟩ := exists_lays hflawless hdefined
    obtain ⟨hpairs, hnodup⟩ := hlays.defines
    rw [build_of_lays (by simp [hsplit]) hlays,
      checkCycles_cyclic hpairs hnodup hcycle (hsplit ▸ hpairs) hbefore]
    rfl

end build

/-- **Definitions are refused exactly for what is wrong with them**, and for the first such thing: none
at all, the first flaw of a definition after those before it, the first name that is not defined, the
first chain of references that never ends. Otherwise there is a grammar. -/
theorem build_eq_error_iff (definitions : List Definition) :
    (∀ e, Grammar.build definitions = .error e ↔ Refused definitions e) ∧
      ((∃ g, Grammar.build definitions = .ok g) ↔ Accepted definitions) := by
  constructor
  · refine fun e => ⟨fun h => ?_, build_refused⟩
    rcases accepted_or_refused definitions with haccepted | ⟨e', hrefused⟩
    · obtain ⟨g, hg⟩ := build_accepted haccepted
      cases hg.symm.trans h
    · cases (build_refused hrefused).symm.trans h
      exact hrefused
  · refine ⟨fun ⟨g, hg⟩ => ?_, build_accepted⟩
    rcases accepted_or_refused definitions with haccepted | ⟨e', hrefused⟩
    · exact haccepted
    · cases (build_refused hrefused).symm.trans hg

/-- Four things are wrong here, and the first construct without elements is named. -/
example : Grammar.build [⟨"A", .reference "A"⟩,
    ⟨"B", .seq [.reference "C", .optional (.choice []), .seq []]⟩, ⟨"~B", .empty⟩] =
    .error (.emptyClause "B" .choice) := rfl

end Packrat
