import Packrat.Proofs.ReadBack

/-!
# What definitions are refused for

Definitions make no grammar if there are none, if a construct has no elements, or if something is wrong
with their names.

* `GrammarError.concernsNames` — the errors of the last kind.
* `Expr.Populated` — a construct that has the elements that it needs.
* **`build_concernsNames`** — definitions of populated expressions are refused for their names only.
-/

namespace Packrat

/-- What it takes for one computation after another to fail. -/
theorem except_bind_eq_error {ε α β : Type} {x : Except ε α} {f : α → Except ε β} {e : ε}
    (h : x >>= f = .error e) : x = .error e ∨ ∃ a, x = .ok a ∧ f a = .error e := by
  cases x with
  | error e' =>
    cases h
    exact .inl rfl
  | ok a => exact .inr ⟨a, rfl, h⟩

/-- A list of computations fails with the error of one of them. -/
theorem exists_of_mapM_eq_error {ε α β : Type} {f : α → Except ε β} {e : ε} :
    ∀ {as : List α}, as.mapM f = .error e → ∃ a ∈ as, f a = .error e
  | [], h => by
    rw [List.mapM_nil] at h
    cases h
  | a :: as, h => by
    rw [List.mapM_cons] at h
    rcases except_bind_eq_error h with hfirst | ⟨b, -, h⟩
    · exact ⟨a, List.mem_cons_self, hfirst⟩
    · rcases except_bind_eq_error h with hrest | ⟨bs, -, h⟩
      · obtain ⟨other, hother, herror⟩ := exists_of_mapM_eq_error hrest
        exact ⟨other, List.mem_cons_of_mem a hother, herror⟩
      · cases h

/-! ## Constructs with elements -/

/-- Whether a construct that needs elements has one. -/
def Expr.Populated : Expr → Prop
  | .charClass ranges _ => ranges ≠ []
  | .seq items | .choice items => items ≠ []
  | _ => True

mutual

/-- Populated expressions are lowered. -/
theorem exists_lower (rule : String) : (e : Expr) → e.Each Expr.Populated → ∀ base,
    ∃ result, lower rule base e = .ok result
  | .literal _, _, _ | .char _, _, _ | .anyChar, _, _ | .empty, _, _ | .reference _, _, _ => ⟨_, rfl⟩
  | .charClass ranges inverted, h, base => by
    have hne : ranges.isEmpty = false := List.isEmpty_eq_false_iff.2 h
    exact ⟨([.charClass ranges inverted], base), by rw [lower, hne]; rfl⟩
  | .seq items, ⟨hne, hitems⟩, base | .choice items, ⟨hne, hitems⟩, base => by
    obtain ⟨result, hresult⟩ := exists_lowerItems rule items hitems base
    rw [lower, List.isEmpty_eq_false_iff.2 hne]
    exact ⟨_, except_bind_eq_ok.2 ⟨result, hresult, rfl⟩⟩
  | .repeated item _, ⟨_, hitem⟩, base | .optional item, ⟨_, hitem⟩, base
  | .ahead item, ⟨_, hitem⟩, base | .notAhead item, ⟨_, hitem⟩, base => by
    obtain ⟨result, hresult⟩ := exists_lower rule item hitem base
    rw [lower]
    exact ⟨_, except_bind_eq_ok.2 ⟨result, hresult, rfl⟩⟩

/-- Populated expressions are lowered, also where there are several. -/
theorem exists_lowerItems (rule : String) : (items : List Expr) →
    Expr.EachItem Expr.Populated items → ∀ base, ∃ result, lowerItems rule base items = .ok result
  | [], _, _ => ⟨_, rfl⟩
  | item :: rest, ⟨hitem, hrest⟩, base => by
    obtain ⟨first, hfirst⟩ := exists_lower rule item hitem base
    obtain ⟨others, hothers⟩ := exists_lowerItems rule rest hrest (base + first.1.length)
    rw [lowerItems]
    exact ⟨_, except_bind_eq_ok.2 ⟨first, hfirst, except_bind_eq_ok.2 ⟨others, hothers, rfl⟩⟩⟩

end

/-! ## Errors about names -/

/-- Whether an error is about the names of rules: one that is not defined, one that is defined twice, or
one that stands for nothing but names. -/
def GrammarError.concernsNames : GrammarError → Bool
  | .undefinedRule _ | .duplicateRule _ | .transparencyConflict _ | .cyclicReference _ => true
  | _ => false

/-- A name that an earlier rule has. -/
theorem checkName_concernsNames {earlier : List Rule} {name : String} {transparent : Bool}
    {e : GrammarError} (h : checkName earlier name transparent = .error e) :
    e.concernsNames = true := by
  unfold checkName at h
  split at h
  · cases h
  · split at h
    all_goals
      cases h
      rfl

/-- Definitions of populated expressions are lowered unless a name is repeated. -/
theorem lowerAll_concernsNames {e : GrammarError} : ∀ {definitions : List Definition}
    {clauses : List Clause} {rules : List Rule},
    (∀ definition ∈ definitions, definition.body.Each Expr.Populated) →
    lowerAll clauses rules definitions = .error e → e.concernsNames = true
  | [], _, _, _, h => by cases h
  | definition :: rest, clauses, rules, hpopulated, h => by
    obtain ⟨hbody, hrest⟩ := List.forall_mem_cons.1 hpopulated
    rw [lowerAll] at h
    rcases except_bind_eq_error h with hname | ⟨⟨⟩, -, h⟩
    · exact checkName_concernsNames hname
    · obtain ⟨result, hresult⟩ :=
        exists_lower (unmarked definition.name) definition.body hbody clauses.length
      rcases except_bind_eq_error h with hlower | ⟨_, -, h⟩
      · cases hresult.symm.trans hlower
      · exact lowerAll_concernsNames hrest h

/-- A reference to a rule that is not there. -/
theorem resolve_concernsNames {rules : List Rule} {clause : Clause} {e : GrammarError}
    (h : resolve rules clause = .error e) : e.concernsNames = true := by
  unfold resolve at h
  split at h
  · split at h
    · cases h
    · cases h
      rfl
  · cases h

/-- Rules that only refer to each other. -/
theorem checkCycles_concernsNames {clauses : Array Clause} {e : GrammarError} : ∀ {rules : List Rule},
    checkCycles clauses rules = .error e → e.concernsNames = true
  | [], h => by cases h
  | rule :: rest, h => by
    rw [checkCycles] at h
    split at h
    · exact checkCycles_concernsNames h
    · cases h
      rfl

/-- **Definitions of populated expressions are refused for their names only**, if there are any. -/
theorem build_concernsNames {definitions : List Definition} (hne : definitions ≠ [])
    (hpopulated : ∀ definition ∈ definitions, definition.body.Each Expr.Populated) {e : GrammarError}
    (h : Grammar.build definitions = .error e) : e.concernsNames = true := by
  rw [Grammar.build, List.isEmpty_eq_false_iff.2 hne] at h
  rcases except_bind_eq_error h with hlower | ⟨⟨lowered, rules⟩, -, h⟩
  · exact lowerAll_concernsNames hpopulated hlower
  · rcases except_bind_eq_error h with hresolve | ⟨resolved, -, h⟩
    · obtain ⟨clause, -, hclause⟩ := exists_of_mapM_eq_error hresolve
      exact resolve_concernsNames hclause
    · rcases except_bind_eq_error h with hcycles | ⟨_, -, h⟩
      · exact checkCycles_concernsNames hcycles
      · cases h

end Packrat
