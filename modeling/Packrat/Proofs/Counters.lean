import Packrat.Proofs.Courses
import Packrat.Proofs.Parsing

/-!
# Counting changes no result

A run keeps counters if it starts with them. The chart has versions beside them, which the same steps
of a run raise and which do decide what is evaluated again.

* `Session.uncounted` — a session without its counters.
* `Indifferent` — a computation that never looks at the counters: without them it gives the same
  value, or breaks off in the same way, and leaves the same chart and the same events.
* One lemma for each way to read or change a session, and `indifferent_charted` from them.
* `matchClause_indifferent`, `Job.matchPhases_indifferent` — whole runs.
* **`parse_ignores_counters`** — a parse that counts its work gives what one that does not gives.
-/

namespace Packrat

/-- The session without its counters. -/
def Session.uncounted (s : Session) : Session := { s with work := none }

/-- A result of a computation, without the counters. -/
def uncountedResult {α : Type} (result : α × Session) : α × Session :=
  (result.1, result.2.uncounted)

/-- Whether a computation does not look at the counters, and neither drops them nor brings them
up. -/
structure Indifferent {α : Type} (m : MatchM α) : Prop where
  /-- Without the counters the result is the same. -/
  erased : ∀ s, m.run s.uncounted = (m.run s).map uncountedResult
  /-- There are counters afterwards if there were some before. -/
  counting : ∀ {s a t}, m.run s = .ok (a, t) → t.work.isSome = s.work.isSome

namespace Indifferent

variable {α β : Type} {m : MatchM α}

/-- A value is given at once. -/
theorem pure (a : α) : Indifferent (Pure.pure a) where
  erased _ := rfl
  counting h := by
    cases h
    rfl

/-- Breaking off. -/
theorem throw (e : Fault) : Indifferent (MonadExcept.throw e : MatchM α) := ⟨fun _ => rfl, nofun⟩

/-- One computation after another. -/
theorem bind {f : α → MatchM β} (hm : Indifferent m) (hf : ∀ a, Indifferent (f a)) :
    Indifferent (m >>= f) where
  erased s := by
    rw [StateT.run_bind, StateT.run_bind, hm.erased]
    cases hr : m.run s with
    | error e => rfl
    | ok result => exact (hf result.1).erased result.2
  counting h := by
    obtain ⟨a, u, hrun, hrest⟩ := Session.run_bind_eq_ok.1 h
    exact ((hf a).counting hrest).trans (hm.counting hrun)

/-- A change of the session that does not depend on the counters. -/
theorem change {f : Session → Session} (h : ∀ s, f s.uncounted = (f s).uncounted)
    (hwork : ∀ s, (f s).work.isSome = s.work.isSome) : Indifferent (modify f : MatchM Unit) where
  erased s := congrArg (fun t => Except.ok ((), t)) (h s)
  counting {s a t} hrun := by
    cases hrun
    exact hwork s

end Indifferent

/-! ## Reading and changing a session -/

/-- Counting itself: without counters there is nothing to count with. -/
theorem tally_indifferent (f : Work → Work) : Indifferent (Session.tally f) :=
  .change (fun _ => rfl) fun _ => Option.isSome_map

/-- Reporting an event. -/
theorem note_indifferent (event : Event) : Indifferent (Session.note event) :=
  .change (fun _ => rfl) fun _ => rfl

/-- Reading a column. -/
theorem column_indifferent (pos : Nat) : Indifferent (Session.column pos) := by
  constructor
  · intro s
    rw [Session.run_column_eq_elim, Session.run_column_eq_elim]
    show (s.chart.column? pos).elim _ _ = _
    cases s.chart.column? pos <;> rfl
  · intro s a t h
    rw [Session.run_column_eq_elim] at h
    cases hcolumn : s.chart.column? pos with
    | none =>
      rw [hcolumn] at h
      cases h
    | some column =>
      rw [hcolumn] at h
      cases h
      rfl

/-! ## Matching -/

/-- None of what reads and changes a session looks at the counters. -/
theorem indifferent_charted : Charted fun (m : Unit → MatchM _) => Indifferent (m ()) where
  pure := .pure
  throw := .throw
  bind hm hf := .bind hm hf
  note := note_indifferent
  tally := tally_indifferent
  column := column_indifferent
  change _ _ := .change (fun _ => rfl) fun _ => rfl

/-- **Matching a clause never looks at the counters.** The induction is on the depth. -/
theorem matchClause_indifferent (ctx : Context) : ∀ (depth : Nat) (phase : Phase) (id : ClauseId)
    (pos : Nat) (bound : Option ClauseId), Indifferent (matchClause ctx depth phase id pos bound)
  | 0, _, _, _, _ => .throw _
  | depth + 1, phase, id, pos, bound => by
    have hmatch := matchClause_indifferent ctx depth
    have heval : ∀ clause,
        Indifferent (evaluate ctx (matchClause ctx depth) phase id clause pos bound) := fun clause =>
      indifferent_charted.evaluate ctx (fun _ => matchClause ctx depth) (hmatch phase)
        (fun id pos => hmatch .discovery id pos none) id clause pos bound
    exact indifferent_charted.matchWith ctx
      (fun _ clause => evaluate ctx (matchClause ctx depth) phase id clause pos bound) heval phase id pos

/-! ## Parses -/

namespace Job

/-- The phases of a parse never look at the counters. -/
theorem matchPhases_indifferent (job : Job) : Indifferent job.matchPhases := by
  have htop : ∀ phase, Indifferent (job.matchTop phase) := fun phase =>
    matchClause_indifferent job.context job.context.depth phase job.top 0 none
  unfold matchPhases
  refine .bind (note_indifferent _) fun _ => .bind (htop _) fun outcome => ?_
  split
  · exact .pure _
  · split
    · exact .pure _
    · exact .bind (note_indifferent _) fun _ => .bind (htop _) fun _ => .pure _

/-- The same parse, without counting. -/
def uncounted (job : Job) : Job := { job with config := { job.config with stats := false } }

end Job

/-- The result without the counters. -/
def Parse.uncounted (p : Parse) : Parse := { p with work := none }

namespace Job

/-- **A run without counting** gives the result of the run with it, less the counters, and reports
the same events; if one breaks off, so does the other. -/
theorem execute_uncounted (job : Job) :
    job.uncounted.execute = job.execute.map fun result => (result.1.uncounted, result.2) := by
  have herased : job.uncounted.matchPhases.run job.uncounted.start =
      (job.matchPhases.run job.start).map uncountedResult :=
    job.matchPhases_indifferent.erased job.start
  rw [execute, execute, herased]
  cases job.matchPhases.run job.start with
  | error e => rfl
  | ok result =>
    obtain ⟨⟨outcome, hasErrors⟩, session⟩ := result
    cases outcome <;> rfl

/-- The result of a parse without counting. -/
theorem run_uncounted (job : Job) : job.uncounted.run = (job.run.1.uncounted, job.run.2) := by
  rw [run, run, execute_uncounted]
  cases job.execute <;> rfl

/-- A result holds counters if and only if the work was to be counted. -/
theorem isSome_work_run (job : Job) : job.run.1.work.isSome = job.config.stats := by
  have hstart : job.config.counters.isSome = job.config.stats := by
    unfold Config.counters
    cases job.config.stats <;> rfl
  have hassemble : ∀ outcome hasErrors work,
      (job.assemble outcome hasErrors work).work = work := by
    intro outcome hasErrors work
    cases outcome <;> rfl
  cases hrun : job.matchPhases.run job.start with
  | error e =>
    have hexecute : job.execute = .error e := by rw [execute, hrun]; rfl
    rw [run, hexecute, hassemble, hstart]
  | ok result =>
    obtain ⟨⟨outcome, hasErrors⟩, session⟩ := result
    obtain ⟨events, hexecute⟩ := execute_of_run hrun
    rw [run, hexecute, hassemble, job.matchPhases_indifferent.counting hrun]
    exact hstart

end Job

/-- **Counting changes no result.** From any rule of any grammar, on any input and with or without
repairs, a parse that counts its work and one that does not give the same root, the same rest of the
input, the same flag and the same list of syntax errors; they differ in the counters, which only the
first one has. A rule that does not exist is refused in the same way. -/
theorem parse_ignores_counters (g : Grammar) (rule input : String) (recovery : Bool) :
    (g.rule? rule = none ∧
      parse g rule input ⟨recovery, true⟩ = .error (.unknownRule rule) ∧
      parse g rule input ⟨recovery, false⟩ = .error (.unknownRule rule)) ∨
    ∃ counted plain,
      parse g rule input ⟨recovery, true⟩ = .ok counted ∧
      parse g rule input ⟨recovery, false⟩ = .ok plain ∧
      plain.root = counted.root ∧ plain.unmatched = counted.unmatched ∧
      plain.hasErrors = counted.hasErrors ∧ plain.syntaxErrors = counted.syntaxErrors ∧
      counted.work.isSome = true ∧ plain.work = none := by
  cases hr : g.rule? rule with
  | none =>
    have hmake : ∀ config, Job.make g rule input config = .error (.unknownRule rule) := by
      intro config
      rw [Job.make, hr]
      rfl
    left
    exact ⟨rfl, by rw [parse, hmake]; rfl, by rw [parse, hmake]; rfl⟩
  | some top =>
    let job := g.job rule top input ⟨recovery, true⟩
    have hcounted : parse g rule input ⟨recovery, true⟩ = .ok job.run.1 := by
      rw [parse, Job.make_eq_ok hr]
      rfl
    have hplain : parse g rule input ⟨recovery, false⟩ = .ok job.run.1.uncounted := by
      rw [parse, Job.make_eq_ok hr]
      exact congrArg (fun result => Except.ok result.1) job.run_uncounted
    right
    exact ⟨job.run.1, job.run.1.uncounted, hcounted, hplain, rfl, rfl, rfl, rfl,
      job.isSome_work_run, rfl⟩

end Packrat
