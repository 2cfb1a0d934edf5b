import Packrat.Proofs.Courses

/-!
# A larger depth changes no result

The depth of a run bounds how deep evaluations may be nested. A run that does not use up its depth
gives the same result at every larger depth, so the bound decides only whether there is a result
and never which one.

* `Extends m m'` — every result of `m` is one of `m'`, from the same session.
* `evaluate_extends` — an evaluation through a matcher that gives more results gives more results.
* **`matchClause_extends`** — a larger depth gives more results.
* `matchClause_result_unique` — all depths that give a result give the same one.
-/

namespace Packrat

/-- Whether every result of `m` is also the result of `m'`. -/
def Extends {α : Type} (m m' : MatchM α) : Prop := ∀ s result, m.run s = .ok result →
  m'.run s = .ok result

namespace Extends

variable {α β : Type}

/-- A computation gives its own results. -/
theorem refl (m : MatchM α) : Extends m m := fun _ _ h => h

/-- Breaking off gives no results. -/
theorem throw {e : Fault} {m : MatchM α} : Extends (MonadExcept.throw e) m := nofun

/-- One computation after another. -/
theorem bind {m m' : MatchM α} {f f' : α → MatchM β} (hm : Extends m m')
    (hf : ∀ a, Extends (f a) (f' a)) : Extends (m >>= f) (m' >>= f') := by
  intro s result h
  rw [StateT.run_bind] at h ⊢
  cases hr : m.run s with
  | error e =>
    rw [hr] at h
    cases h
  | ok first =>
    rw [hr] at h
    rw [hm s first hr]
    exact hf first.1 first.2 result h

end Extends

/-- Whether one matcher gives all results of another. -/
def Matcher.Extends (matcher matcher' : Matcher) : Prop :=
  ∀ phase id pos bound,
    Packrat.Extends (matcher phase id pos bound) (matcher' phase id pos bound)

/-- All that reads and changes a session is the same for both. -/
theorem extends_charted : Charted fun (m : Bool → MatchM _) => Extends (m true) (m false) where
  pure _ := .refl _
  throw _ := .throw
  bind hm hf := .bind hm hf
  note _ := .refl _
  tally _ := .refl _
  column _ := .refl _
  change _ _ := .refl _

/-- An evaluation through a matcher that gives more results. -/
theorem evaluate_extends {ctx : Context} {matcher matcher' : Matcher} (hM : matcher.Extends matcher')
    (phase : Phase) (id : ClauseId) (clause : Clause) (pos : Nat) (bound : Option ClauseId) :
    Extends (evaluate ctx matcher phase id clause pos bound)
      (evaluate ctx matcher' phase id clause pos bound) :=
  extends_charted.evaluate ctx (fun first : Bool => if first then matcher else matcher') (hM phase)
    (fun id pos => hM .discovery id pos none) id clause pos bound

/-- **A larger depth gives more results.** The induction is on the smaller depth. -/
theorem matchClause_extends (ctx : Context) : ∀ {depth larger : Nat}, depth ≤ larger →
    Matcher.Extends (matchClause ctx depth) (matchClause ctx larger)
  | 0, _, _ => fun _ _ _ _ => .throw
  | depth + 1, larger, hle => by
    obtain ⟨larger, rfl⟩ : ∃ k, larger = k + 1 := ⟨larger - 1, by omega⟩
    intro phase id pos bound
    have hsmaller := matchClause_extends ctx (Nat.le_of_succ_le_succ hle)
    exact extends_charted.matchWith ctx
      (fun first clause =>
        evaluate ctx (matchClause ctx (if first then depth else larger)) phase id clause pos bound)
      (fun clause => evaluate_extends hsmaller phase id clause pos bound) phase id pos

/-- All depths that give a result give the same one. -/
theorem matchClause_result_unique {ctx : Context} {depth depth' : Nat} {phase : Phase} {id : ClauseId}
    {pos : Nat} {bound : Option ClauseId} {s : Session} {result result' : Outcome × Session}
    (h : (matchClause ctx depth phase id pos bound).run s = .ok result)
    (h' : (matchClause ctx depth' phase id pos bound).run s = .ok result') : result = result' := by
  have hmax := matchClause_extends ctx (Nat.le_max_left depth depth') _ _ _ _ s result h
  have hmax' := matchClause_extends ctx (Nat.le_max_right depth depth') _ _ _ _ s result' h'
  exact Except.ok.inj (hmax.symm.trans hmax')

end Packrat
