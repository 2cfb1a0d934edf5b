import Packrat.Proofs.Evaluation

/-!
# The course of an evaluation

In either phase an evaluation at a position is put together from values, faults, one computation after
another, and what its matcher gives for the clauses that it consults in the same phase; in the second
phase also from events, repairs, and what its matcher gives for probes. None of this looks back: all of
it is at the position or later. A property that these keep passes from the matcher to every evaluation.
What is done with the chart around an evaluation is put together in a similar way.

The property is one of a family of computations, which take the same course with different matchers; so
it can compare several runs.

* `Composable P` — values, faults and one computation after another keep the property `P`.
* **`Course has start phase matchers P`** — so does all else that evaluations in a phase at `start` or later
  are put together from, if they are about clauses that satisfy `has`.
* **`Course.evaluate`** — evaluating any clause then has the property; `evaluate_composable` — in the first
  phase it takes no more than that `P` is composable.
* `evaluate_congr` — evaluating in a phase asks the matcher in that phase only, apart from probes.
* **`Charted P`** — whatever reads and changes a session keeps the property; `Charted.evaluate`,
  `Charted.matchWith` — then so do evaluating and matching, wherever they are.
-/

namespace Packrat

/-! ## What keeps a property -/

/-- **A property of families of computations** that is kept by values, faults and one computation after
another. -/
structure Composable {ι : Type} (P : ∀ {α : Type}, (ι → MatchM α) → Prop) : Prop where
  /-- A value is given at once. -/
  pure : ∀ {α : Type} (a : α), P fun _ => Pure.pure a
  /-- All break off. -/
  throw : ∀ {α : Type} (e : Fault), P fun _ => (MonadExcept.throw e : MatchM α)
  /-- One computation after another. -/
  bind : ∀ {α β : Type} {m : ι → MatchM α} {f : α → ι → MatchM β}, P m → (∀ a, P (f a)) →
    P fun i => m i >>= fun a => f a i

/-- **A property that evaluations in a phase keep**, as long as they are about clauses of a kind and
positions from `start` on. Only the second phase repairs, and only repairs and bounds take probes. -/
structure Course {ι : Type} (has : ClauseId → Prop) (start : Nat) (phase : Phase)
    (matchers : ι → Matcher) (P : ∀ {α : Type}, (ι → MatchM α) → Prop) : Prop
    extends Composable @P where
  /-- A clause is consulted. -/
  consulted : ∀ {id pos bound}, has id → (∀ other ∈ bound, has other) → start ≤ pos →
    P fun i => matchers i phase id pos bound
  /-- A clause is probed. -/
  probed : phase = .recovery → ∀ {id pos}, has id → start ≤ pos →
    P fun i => matchers i .discovery id pos none
  /-- A repair is recorded. -/
  repaired : phase = .recovery → ∀ {pos}, start ≤ pos → P fun _ => recordRepair pos
  /-- An event is reported. -/
  note : phase = .recovery → ∀ event, P fun _ => Session.note event

namespace Composable

variable {ι : Type} {P : ∀ {α : Type}, (ι → MatchM α) → Prop}

/-- One of two computations, the same one for all. -/
theorem ite (_ : Composable P) {α : Type} {m m' : ι → MatchM α} (c : Prop) [Decidable c] (hm : P m)
    (hm' : ¬c → P m') : P fun i => if c then m i else m' i := by
  by_cases hc : c
  · simpa only [if_pos hc] using hm
  · simpa only [if_neg hc] using hm' hc

variable (h : Composable P)
include h

/-- Looking up a clause. -/
theorem clause (ctx : Context) (id : ClauseId) : P fun _ => ctx.clause id := by
  unfold Context.clause
  cases ctx.grammar.clause? id with
  | none => exact h.throw _
  | some clause => exact h.pure clause

/-- Looking up a clause, if there is one at all. -/
theorem mapM_clause (ctx : Context) (id : Option ClauseId) : P fun _ => id.mapM ctx.clause := by
  cases id with
  | none => exact h.pure none
  | some id =>
    simp only [Option.mapM_some, ← bind_pure_comp]
    exact h.bind (h.clause ctx id) fun clause => h.pure (some clause)

/-- One level of matching, for a clause that is in the table at a position of the input. -/
theorem matchWith (ctx : Context) {evaluations : ι → Clause → MatchM Outcome} {phase : Phase}
    {id : ClauseId} {pos : Nat}
    (hwithin : ∀ {clause}, ctx.grammar.clause? id = some clause → pos ≤ ctx.input.size →
      P fun i => if clause.isReference then evaluations i clause
        else matchThrough ctx (evaluations i clause) phase id pos) :
    P fun i => Packrat.matchWith ctx (evaluations i) phase id pos := by
  by_cases hpos : ctx.input.size < pos
  · simp only [Packrat.matchWith, if_pos hpos]
    exact h.pure _
  cases hclause : ctx.grammar.clause? id with
  | none =>
    have hfault : ctx.clause id = (MonadExcept.throw Fault.outOfRange : MatchM Clause) := by
      unfold Context.clause
      rw [hclause]
    have hstop : ∀ f : Clause → MatchM Outcome,
        ((MonadExcept.throw Fault.outOfRange : MatchM Clause) >>= f) = MonadExcept.throw .outOfRange :=
      fun _ => rfl
    simp only [Packrat.matchWith, if_neg hpos, hfault, hstop]
    exact h.throw _
  | some clause =>
    simp only [matchWith_of_clause (Nat.le_of_not_lt hpos) hclause]
    exact hwithin hclause (Nat.le_of_not_lt hpos)

/-- A search through a list. -/
theorem findSomeM? {α β : Type} {f : β → ι → MatchM (Option α)} (items : List β)
    (hf : ∀ b ∈ items, P (f b)) : P fun i => items.findSomeM? fun b => f b i := by
  induction items with
  | nil => exact h.pure none
  | cons b rest ih =>
    simp only [List.findSomeM?]
    refine h.bind (hf b List.mem_cons_self) fun found => ?_
    cases found with
    | none => exact ih fun c hc => hf c (List.mem_cons_of_mem b hc)
    | some a => exact h.pure (some a)

end Composable

/-! ## Evaluations -/

/-- A phase that is not the first one is the second. -/
theorem Phase.eq_recovery {phase : Phase} (h : phase ≠ .discovery) : phase = .recovery := by
  cases phase with
  | discovery => exact absurd rfl h
  | recovery => rfl

namespace Course

variable {ι : Type} {ctx : Context} {has : ClauseId → Prop} {start : Nat} {phase : Phase}
  {matchers : ι → Matcher} {P : ∀ {α : Type}, (ι → MatchM α) → Prop}
  (h : Course has start phase matchers P)
include h

/-! ### Repairs -/

/-- Repairing a sequence. -/
theorem repairSequence (hphase : phase = .recovery) {failed : ClauseId} (rest : List ClauseId) {pos : Nat}
    (hfailed : has failed) (hpos : start ≤ pos) :
    P fun i => Packrat.repairSequence ctx (matchers i .discovery · · none) failed rest pos := by
  unfold Packrat.repairSequence
  refine h.ite _ (h.pure _) fun _ => ?_
  refine h.bind (h.clause ctx failed) fun failedClause => h.bind (h.mapM_clause ctx _) fun next => ?_
  refine h.findSomeM? _ fun skip _ => ?_
  unfold resumeAfter
  refine h.ite _ (h.pure _) fun _ => ?_
  refine h.bind (h.probed hphase hfailed (Nat.le_add_right_of_le hpos)) fun outcome => ?_
  cases outcome with
  | matched node => exact h.ite _ (h.pure _) fun _ => h.pure _
  | mismatch | pending => exact h.pure _

/-- Repairing a repetition. -/
theorem repairRepetition (hphase : phase = .recovery) {item : ClauseId} {pos : Nat} (repaired : Bool)
    (hitem : has item) (hpos : start ≤ pos) :
    P fun i => Packrat.repairRepetition ctx (matchers i .discovery · · none) item pos repaired := by
  unfold Packrat.repairRepetition
  refine h.bind (h.findSomeM? _ fun skip _ => ?_) fun found => ?_
  · exact h.bind (h.probed hphase hitem (Nat.le_add_right_of_le hpos)) fun outcome => h.pure _
  · cases found with
    | some repair => exact h.pure (some repair)
    | none => exact h.ite _ (h.pure _) fun _ => h.pure _

/-! ### Sequences -/

/-- The elements of a sequence. -/
theorem evaluateElements (id : ClauseId) {bound : Option ClauseId}
    (hbound : ∀ other ∈ bound, has other) (elements : List ClauseId) {pos : Nat}
    (helements : ∀ other ∈ elements, has other) (hpos : start ≤ pos) :
    P fun i => Packrat.evaluateElements ctx (matchers i) phase id bound elements pos := by
  induction elements generalizing pos with
  | nil => exact h.pure (some [])
  | cons element rest ih =>
    have helement := helements element List.mem_cons_self
    have hrest : ∀ other ∈ rest, has other :=
      fun other hother => helements other (List.mem_cons_of_mem element hother)
    simp only [Packrat.evaluateElements]
    refine h.bind (h.consulted helement (elementBound_has hrest hbound) hpos) fun outcome => ?_
    cases outcome with
    | matched node =>
      exact h.bind (ih hrest (Nat.le_add_right_of_le hpos)) fun others => h.pure _
    | mismatch | pending =>
      refine h.ite _ (h.pure _) fun hgoes => ?_
      have hphase : phase = .recovery := Phase.eq_recovery fun hfirst => hgoes (by simp [hfirst])
      refine h.bind (h.repairSequence hphase rest helement hpos) fun repair => ?_
      rcases repair with _ | ⟨_ | ⟨skip, node⟩⟩
      · exact h.pure _
      · exact h.bind (h.repaired hphase hpos) fun _ => h.bind (h.note hphase _) fun _ => h.pure _
      · refine h.bind (h.repaired hphase hpos) fun _ => h.bind (h.note hphase _) fun _ => ?_
        exact h.bind (ih hrest (by omega)) fun others => h.pure _

/-! ### Choices -/

/-- The most plausible alternative. -/
theorem bestAlternative {pos : Nat} {bound : Option ClauseId}
    (hbound : ∀ other ∈ bound, has other) (hpos : start ≤ pos) (rest : List ClauseId)
    (hrest : ∀ other ∈ rest, has other) (best : Node) :
    P fun i => Packrat.bestAlternative (matchers i) phase pos bound rest best := by
  induction rest generalizing best with
  | nil => exact h.pure best
  | cons alternative rest ih =>
    have hothers : ∀ other ∈ rest, has other :=
      fun other hother => hrest other (List.mem_cons_of_mem alternative hother)
    simp only [Packrat.bestAlternative]
    refine h.bind (h.consulted (hrest alternative List.mem_cons_self) hbound hpos) fun outcome => ?_
    cases outcome with
    | matched candidate =>
      simp only
      generalize (if preferred candidate best then candidate else best) = chosen
      exact h.ite _ (h.pure chosen) fun _ => ih hothers chosen
    | mismatch | pending => exact ih hothers best

/-- The first alternative that matches. -/
theorem firstAlternative {pos : Nat} {bound : Option ClauseId}
    (hbound : ∀ other ∈ bound, has other) (hpos : start ≤ pos) (alternatives : List ClauseId)
    (hhas : ∀ other ∈ alternatives, has other) :
    P fun i => Packrat.firstAlternative (matchers i) phase pos bound alternatives := by
  induction alternatives with
  | nil => exact h.pure none
  | cons alternative rest ih =>
    simp only [Packrat.firstAlternative]
    refine h.bind (h.consulted (hhas alternative List.mem_cons_self) hbound hpos) fun outcome => ?_
    cases outcome with
    | matched node => exact h.pure (some node)
    | mismatch | pending => exact ih fun other hother => hhas other (List.mem_cons_of_mem _ hother)

/-- The alternative that a choice takes. -/
theorem chooseAlternative {pos : Nat} {bound : Option ClauseId}
    (hbound : ∀ other ∈ bound, has other) (hpos : start ≤ pos) (alternatives : List ClauseId)
    (hhas : ∀ other ∈ alternatives, has other) :
    P fun i => Packrat.chooseAlternative (matchers i) phase pos bound alternatives := by
  cases alternatives with
  | nil => exact h.pure none
  | cons alternative rest =>
    have hrest : ∀ other ∈ rest, has other :=
      fun other hother => hhas other (List.mem_cons_of_mem alternative hother)
    simp only [Packrat.chooseAlternative]
    refine h.bind (h.consulted (hhas alternative List.mem_cons_self) hbound hpos) fun outcome => ?_
    cases outcome with
    | matched node =>
      refine h.ite _ ?_ fun _ => h.pure _
      exact h.bind (h.bestAlternative hbound hpos rest hrest node) fun best => h.pure _
    | mismatch | pending => exact h.firstAlternative hbound hpos rest hrest

/-! ### Repetitions -/

/-- Looking for the bound of a repetition. -/
theorem boundReached {pos : Nat} {bound : Option ClauseId}
    (hbound : ∀ other ∈ bound, has other) (hpos : start ≤ pos) :
    P fun i => Packrat.boundReached (matchers i) phase bound pos := by
  cases phase with
  | discovery => exact h.pure false
  | recovery =>
    cases bound with
    | none => exact h.pure false
    | some id => exact h.bind (h.probed rfl (hbound id rfl) hpos) fun outcome => h.pure _

/-- The iterations of a repetition. -/
theorem iterate (id : ClauseId) {item : ClauseId} {bound : Option ClauseId}
    (hitem : has item) (hbound : ∀ other ∈ bound, has other) (fuel : Nat) {pos : Nat}
    (repaired : Bool) (hpos : start ≤ pos) :
    P fun i => Packrat.iterate ctx (matchers i) phase id item bound fuel pos repaired := by
  induction fuel generalizing pos repaired with
  | zero => exact h.throw _
  | succ fuel ih =>
    simp only [Packrat.iterate]
    refine h.ite _ (h.pure _) fun _ => h.bind (h.boundReached hbound hpos) fun reached => ?_
    refine h.ite _ (h.pure _) fun _ => h.bind (h.consulted hitem nofun hpos) fun outcome => ?_
    cases outcome with
    | matched node =>
      refine h.ite _ (h.pure _) fun _ => ?_
      exact h.bind (ih repaired (Nat.le_add_right_of_le hpos)) fun result => h.pure _
    | mismatch | pending =>
      refine h.ite _ (h.pure _) fun hlater => ?_
      have hphase : phase = .recovery := Phase.eq_recovery hlater
      refine h.bind (h.repairRepetition hphase repaired hitem hpos) fun repair => ?_
      rcases repair with _ | ⟨skip, _ | node⟩
      · exact h.pure _
      · exact h.bind (h.repaired hphase hpos) fun _ => h.bind (h.note hphase _) fun _ => h.pure _
      · refine h.bind (h.repaired hphase hpos) fun _ => h.bind (h.note hphase _) fun _ => ?_
        exact h.bind (ih true (by omega)) fun result => h.pure _

/-! ### All kinds -/

/-- **Evaluating a clause** has every property that is kept by what it is put together from. -/
theorem evaluate (id : ClauseId) {clause : Clause} {pos : Nat} {bound : Option ClauseId}
    (hchildren : ∀ child ∈ clause.children, has child)
    (hbound : ∀ other ∈ bound, has other) (hpos : start ≤ pos) :
    P fun i => Packrat.evaluate ctx (matchers i) phase id clause pos bound := by
  cases clause with
  | seq elements =>
    refine h.bind (h.evaluateElements id hbound elements hchildren hpos) fun result => ?_
    rcases result with _ | ⟨_ | _⟩ <;> exact h.pure _
  | choice alternatives =>
    refine h.bind (h.chooseAlternative hbound hpos alternatives hchildren) fun result => ?_
    cases result <;> exact h.pure _
  | repeated item atLeastOne =>
    have hitem := hchildren item List.mem_cons_self
    refine h.bind (h.iterate id hitem hbound _ false hpos) fun result => ?_
    obtain ⟨_ | _, short⟩ := result <;> exact h.pure _
  | optional item | reference name item =>
    refine h.bind (h.consulted (hchildren item List.mem_cons_self) hbound hpos) fun outcome => ?_
    cases outcome <;> exact h.pure _
  | ahead item | notAhead item =>
    refine h.bind (h.consulted (hchildren item List.mem_cons_self) hbound hpos) fun outcome => ?_
    cases outcome <;> exact h.pure _
  | literal text | char c | charClass ranges inverted | anyChar | empty => exact h.pure _

end Course

/-- **Evaluating a clause in the first phase** has every composable property that matching has. -/
theorem evaluate_composable {ι : Type} {P : ∀ {α : Type}, (ι → MatchM α) → Prop} {ctx : Context}
    {matchers : ι → Matcher} (hP : Composable P)
    (hM : ∀ id pos bound, P fun i => matchers i .discovery id pos bound) (id : ClauseId)
    (clause : Clause) (pos : Nat) (bound : Option ClauseId) :
    P fun i => evaluate ctx (matchers i) .discovery id clause pos bound := by
  have hcourse : Course (fun _ => True) 0 .discovery matchers P :=
    { hP with
      consulted := fun _ _ _ => hM _ _ _
      probed := nofun
      repaired := nofun
      note := nofun }
  exact hcourse.evaluate id (fun _ _ => trivial) (fun _ _ => trivial) (Nat.zero_le pos)

/-- **A property of families of computations** that is kept by whatever reads and changes a session. -/
structure Charted {ι : Type} (P : ∀ {α : Type}, (ι → MatchM α) → Prop) : Prop
    extends Composable @P where
  /-- An event is reported. -/
  note : ∀ event, P fun _ => Session.note event
  /-- Something is counted. -/
  tally : ∀ f, P fun _ => Session.tally f
  /-- A column is read. -/
  column : ∀ pos, P fun _ => Session.column pos
  /-- A column is changed. -/
  change : ∀ pos f, P fun _ => (modify fun s => { s with chart := s.chart.modify pos f } : MatchM Unit)

namespace Charted

variable {ι : Type} {P : ∀ {α : Type}, (ι → MatchM α) → Prop} (h : Charted P)
include h

/-! ### One step -/

/-- Reading a version. -/
theorem version (pos : Nat) : P fun _ => Session.version pos :=
  h.bind (h.column pos) fun _ => h.pure _

/-- Reading a cell. -/
theorem cell (id : ClauseId) (pos : Nat) : P fun _ => Session.cell id pos :=
  h.bind (h.column pos) fun _ => h.pure _

/-- Storing a cell. -/
theorem setCell (id : ClauseId) (pos : Nat) (cell : Cell) : P fun _ => Session.setCell id pos cell :=
  h.change pos _

/-- Making a position stale. -/
theorem bump (pos : Nat) : P fun _ => Session.bump pos :=
  h.bind (h.version pos) fun _ => h.bind (h.change pos _) fun _ => h.pure _

/-- Recording a repair. -/
theorem recordRepair (pos : Nat) : P fun _ => Packrat.recordRepair pos := by
  refine h.bind (h.tally _) fun _ => ?_
  show P fun _ => Session.bump pos >>= fun _ => Pure.pure ()
  exact h.bind (h.bump pos) fun _ => h.pure _

/-! ### Evaluating and matching -/

/-- **Evaluating any clause** through matchers that have the property, in the phase and for probes. -/
theorem evaluate (ctx : Context) (matchers : ι → Matcher) {phase : Phase}
    (hconsulted : ∀ id pos bound, P fun i => matchers i phase id pos bound)
    (hprobed : ∀ id pos, P fun i => matchers i .discovery id pos none) (id : ClauseId)
    (clause : Clause) (pos : Nat) (bound : Option ClauseId) :
    P fun i => Packrat.evaluate ctx (matchers i) phase id clause pos bound := by
  have hcourse : Course (fun _ => True) 0 phase matchers P :=
    { h.toComposable with
      consulted := fun _ _ _ => hconsulted _ _ _
      probed := fun _ _ _ _ _ => hprobed _ _
      repaired := fun _ _ _ => h.recordRepair _
      note := fun _ => h.note }
  exact hcourse.evaluate id (fun _ _ => trivial) (fun _ _ => trivial) (Nat.zero_le pos)

variable {evaluation : ι → MatchM Outcome}

/-- Growing a match. -/
theorem growSeed (heval : P evaluation) (id : ClauseId) (pos : Nat) :
    ∀ fuel : Nat, P fun i => Packrat.growSeed (evaluation i) id pos fuel
  | 0 => h.throw _
  | fuel + 1 => by
    have hstore : ∀ cell outcome version, P fun _ => storeGrown id pos cell outcome version :=
      fun _ _ _ => h.bind (h.setCell _ _ _) fun _ => h.bind (h.tally _) fun _ => h.note _
    simp only [Packrat.growSeed]
    refine h.bind (h.tally _) fun _ => h.bind heval fun outcome => h.bind (h.cell id pos) fun cell => ?_
    refine h.ite _ (h.pure _) fun _ => h.ite _ (h.setCell _ _ _) fun _ => ?_
    exact h.bind (h.bump pos) fun version => h.bind (hstore cell outcome version) fun _ =>
      growSeed heval id pos fuel

/-- Asking for a clause that is being evaluated. -/
theorem reenter (id : ClauseId) (pos : Nat) (cell : Cell) : P fun _ => Packrat.reenter id pos cell := by
  unfold Packrat.reenter
  rcases cell.result with _ | _ | _ | node
  · exact h.bind (h.setCell _ _ _) fun _ => h.pure _
  all_goals exact h.pure _

/-- Matching through a cell. -/
theorem matchThrough (ctx : Context) (heval : P evaluation) (phase : Phase) (id : ClauseId) (pos : Nat) :
    P fun i => Packrat.matchThrough ctx (evaluation i) phase id pos := by
  unfold Packrat.matchThrough
  refine h.bind (h.version pos) fun version => h.bind (h.cell id pos) fun cell => ?_
  cases cell.reusable? phase version pos ctx.input.size with
  | some outcome => exact h.bind (h.tally _) fun _ => h.pure _
  | none =>
    refine h.ite _ (h.reenter id pos cell) fun _ => ?_
    refine h.bind (h.setCell _ _ _) fun _ => h.bind (h.growSeed heval id pos _) fun _ => ?_
    exact h.bind (h.cell id pos) fun _ => h.bind (h.version pos) fun _ =>
      h.bind (h.setCell _ _ _) fun _ => h.pure _

/-- **One level of matching**, if evaluating the clause has the property. -/
theorem matchWith (ctx : Context) (evaluations : ι → Clause → MatchM Outcome)
    (heval : ∀ clause, P fun i => evaluations i clause) (phase : Phase) (id : ClauseId) (pos : Nat) :
    P fun i => Packrat.matchWith ctx (evaluations i) phase id pos :=
  h.toComposable.matchWith ctx fun {clause} _ _ =>
    h.ite _ (heval clause) fun _ => h.matchThrough ctx (heval clause) phase id pos

end Charted

end Packrat
