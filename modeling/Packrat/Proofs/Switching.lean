import Packrat.Proofs.Courses

/-!
# The phase in the session

A `Matcher` is told the phase of each call. Here the phase is kept in the session: whoever matches finds
it there, and a probe sets it to the first phase for as long as it runs and then puts back the one that it
found. Matching in this way gives what `matchClause` gives, from every session, and leaves the session in
the phase that it was in.

* `Session.inPhase`, `Session.setPhase` — a session in a phase, and the change to one.
* `Matcher.ask` — a call in the phase of the session; `Matcher.probe` — one in the first phase.
* `matchSwitching` — the engine whose evaluations make such calls, and `Job.matchPhasesSwitching` — a run
  that sets the phase when it begins one.
* `Keeps phase plain kept` — from a session in the phase, `kept` gives what `plain` gives and leaves one in
  the phase.
* **`matchSwitching_keeps`** — matching keeps the phase; `Job.run_matchPhasesSwitching` — a run gives what
  it gives without phases in its sessions.
-/

namespace Packrat

/-! ## Setting and putting back -/

/-- The session in a phase. -/
def Session.inPhase (s : Session) (phase : Phase) : Session := { s with phase }

/-- Changes to a phase. -/
def Session.setPhase (phase : Phase) : MatchM Unit := modify (·.inPhase phase)

namespace Matcher

/-- Matches in the phase of the session. -/
def ask (matcher : Matcher) (id : ClauseId) (pos : Nat) (bound : Option ClauseId) : MatchM Outcome := do
  matcher (← get).phase id pos bound

/-- **Probes a clause**: matches it in the first phase, and puts back the phase of before. -/
def probe (matcher : Matcher) (id : ClauseId) (pos : Nat) : MatchM Outcome := do
  let saved := (← get).phase
  Session.setPhase .discovery
  let outcome ← matcher.ask id pos none
  Session.setPhase saved
  return outcome

/-- The calls of an evaluation in a phase: those in that phase are in the phase of the session, and the
others are probes. -/
def switching (matcher : Matcher) (own : Phase) : Matcher := fun phase id pos bound =>
  if phase = own then matcher.ask id pos bound else matcher.probe id pos

end Matcher

/-- **Matching with the phase in the session.** -/
def matchSwitching (ctx : Context) : Nat → Matcher :=
  matchBy ctx (fun matcher phase => evaluate ctx (matcher.switching phase) phase) fun _ _ step => step

/-- The phases of a run, each of which is set when it begins. -/
def Job.matchPhasesSwitching (job : Job) : MatchM (Outcome × Bool) :=
  job.matchPhases fun phase => do
    Session.setPhase phase
    (matchSwitching job.context job.context.depth).ask job.top 0 none

/-! ## Keeping the phase -/

/-- **Whether a computation keeps a phase** and is a plain one apart from that: from a session in the phase
it gives what the plain one gives, and leaves a session in the phase. -/
def Keeps (own : Phase) {α : Type} (plain kept : MatchM α) : Prop :=
  ∀ s : Session, kept.run (s.inPhase own) =
    (plain.run s).map fun result => (result.1, result.2.inPhase own)

namespace Keeps

variable {own : Phase} {α β : Type}

/-- What a plain computation gives is given with the phase kept. -/
theorem run_eq_ok {plain kept : MatchM α} (h : Keeps own plain kept) {s t : Session} {a : α}
    (hrun : plain.run s = .ok (a, t)) : kept.run (s.inPhase own) = .ok (a, t.inPhase own) := by
  rw [h s, hrun]
  rfl

/-- One computation after another. -/
theorem bind {plain kept : MatchM α} {f g : α → MatchM β} (hm : Keeps own plain kept)
    (hf : ∀ a, Keeps own (f a) (g a)) : Keeps own (plain >>= f) (kept >>= g) := by
  intro s
  rw [StateT.run_bind, StateT.run_bind, hm]
  cases plain.run s with
  | error e => rfl
  | ok result => exact hf result.1 result.2

/-- Reading a column. -/
theorem column (pos : Nat) : Keeps own (Session.column pos) (Session.column pos) := by
  intro s
  rw [Session.run_column_eq_elim, Session.run_column_eq_elim]
  show (s.chart.column? pos).elim _ _ = _
  cases s.chart.column? pos <;> rfl

end Keeps

/-- Nothing else that reads or changes a session looks at its phase. -/
theorem keeps_charted (own : Phase) :
    Charted fun (m : Bool → MatchM _) => Keeps own (m true) (m false) where
  pure _ _ := rfl
  throw _ _ := rfl
  bind := .bind
  note _ _ := rfl
  tally _ _ := rfl
  column := .column
  change _ _ _ := rfl

section calls

variable {own : Phase} {plain kept : Matcher} {id : ClauseId} {pos : Nat} {bound : Option ClauseId}

/-- A call in the phase of the session. -/
theorem ask_keeps (h : Keeps own (plain own id pos bound) (kept own id pos bound)) :
    Keeps own (plain own id pos bound) (kept.ask id pos bound) := h

/-- **A probe puts back the phase** that it found, whatever it was. -/
theorem probe_keeps
    (h : Keeps .discovery (plain .discovery id pos none) (kept .discovery id pos none)) :
    Keeps own (plain .discovery id pos none) (kept.probe id pos) := by
  intro s
  have hget : (get : MatchM Session).run (s.inPhase own) = .ok (s.inPhase own, s.inPhase own) := rfl
  have hset : (Session.setPhase .discovery).run (s.inPhase own) = .ok ((), s.inPhase .discovery) := rfl
  have hask := ask_keeps h s
  rw [Matcher.probe, Session.run_bind_of_ok hget, Session.run_bind_of_ok hset, StateT.run_bind, hask]
  cases (plain .discovery id pos none).run s <;> rfl

end calls

/-- **Matching with the phase in the session keeps the phase**, and gives what matching that is told the
phase gives. The induction is on the depth. -/
theorem matchSwitching_keeps (ctx : Context) : ∀ (depth : Nat) (phase : Phase) (id : ClauseId)
    (pos : Nat) (bound : Option ClauseId),
    Keeps phase (matchClause ctx depth phase id pos bound) (matchSwitching ctx depth phase id pos bound)
  | 0, _, _, _, _ => fun _ => rfl
  | depth + 1, phase, id, pos, bound => by
    have hmatch := matchSwitching_keeps ctx depth
    let matchers : Bool → Matcher := fun plain =>
      if plain then matchClause ctx depth else (matchSwitching ctx depth).switching phase
    have hconsulted : ∀ id pos bound,
        Keeps phase (matchers true phase id pos bound) (matchers false phase id pos bound) := by
      intro id pos bound
      show Keeps phase _ (if phase = phase then _ else _)
      rw [if_pos rfl]
      exact ask_keeps (hmatch phase id pos bound)
    have hprobed : ∀ id pos,
        Keeps phase (matchers true .discovery id pos none) (matchers false .discovery id pos none) := by
      intro id pos
      cases phase with
      | discovery => exact hconsulted id pos none
      | recovery => exact probe_keeps (hmatch .discovery id pos none)
    exact (keeps_charted phase).matchWith ctx
      (fun plain clause => evaluate ctx (matchers plain) phase id clause pos bound)
      (fun clause => (keeps_charted phase).evaluate ctx matchers hconsulted hprobed id clause pos bound)
      phase id pos

/-! ## Runs -/

/-- **A run that sets the phase when it begins one** gives what a run gives, with the last phase in its
session. -/
theorem Job.run_matchPhasesSwitching {job : Job} {result : Outcome × Bool} {last : Session}
    (h : job.matchPhases.run job.start = .ok (result, last)) :
    ∃ phase, job.matchPhasesSwitching.run job.start = .ok (result, last.inPhase phase) := by
  let matchTop : Phase → MatchM Outcome := fun phase => do
    Session.setPhase phase
    (matchSwitching job.context job.context.depth).ask job.top 0 none
  have htop : ∀ before {phase s outcome t}, (job.matchTop phase).run s = .ok (outcome, t) →
      (matchTop phase).run (s.inPhase before) = .ok (outcome, t.inPhase phase) := by
    intro before phase s outcome t hrun
    have hkeeps := matchSwitching_keeps job.context job.context.depth phase job.top 0 none
    have hkept := hkeeps.run_eq_ok hrun
    exact hkept
  rw [matchPhases, Session.run_bind_of_ok Session.run_note] at h
  obtain ⟨first, t, hfirst, h⟩ := Session.run_bind_eq_ok.1 h
  have hrun : job.matchPhasesSwitching.run job.start = _ :=
    (Session.run_bind_of_ok Session.run_note).trans
      (Session.run_bind_of_ok (htop .discovery hfirst))
  simp only [hrun]
  by_cases hcovers : job.covers first = true
  · rw [if_pos hcovers] at h ⊢
    cases h
    exact ⟨.discovery, rfl⟩
  rw [if_neg hcovers] at h ⊢
  by_cases hrecovery : (!job.config.recovery) = true
  · rw [if_pos hrecovery] at h ⊢
    cases h
    exact ⟨.discovery, rfl⟩
  rw [if_neg hrecovery, Session.run_bind_of_ok Session.run_note] at h ⊢
  obtain ⟨second, u, hsecond, h⟩ := Session.run_bind_eq_ok.1 h
  cases h
  exact ⟨.recovery, Session.run_bind_of_ok (htop .discovery hsecond)⟩

end Packrat
