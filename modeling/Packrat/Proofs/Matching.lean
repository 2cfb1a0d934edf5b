import Mathlib.Data.Finset.Prod
import Packrat.Match.Engine
import Packrat.Proofs.Evaluation

/-!
# Matching through the chart gives a result

Matching a clause recurses through the chart. What makes the recursion end is that a clause is under
evaluation at a position at most once: a second lookup is answered from its cell. So the cells that
are not under evaluation get fewer with every evaluation that starts inside another, and between two
such evaluations stand only references, whose chains end.

* `Session.Sound` — every match in the chart is a match tree of its clause at its position.
* `Session.Evolves` — how matching may change a chart: no cell starts or ends being under
  evaluation, and one that is changes at most once, when it turns out to be left recursive.
* `Session.free` — the number of cells that are not under evaluation.
* `rounds` — how often the match of a left-recursive clause can still get longer.
* **`Answers`** — a computation gives a sound outcome from a session, and leaves a sound session that
  the first one may evolve into.
* `growSeed_run`, `matchThrough_entered`, `matchThrough_answers`, **`matchClause_answers`** — the promise
  of each layer.
-/

namespace Packrat

/-! ## What the chart holds -/

/-- **The invariant of a session**: its chart fits the input, and every match in it is a match tree
of its clause at its position. -/
structure Session.Sound (ctx : Context) (s : Session) : Prop where
  /-- There is a column for each position. -/
  width : s.width = ctx.input.size + 1
  /-- What is stored is sound. -/
  stored : ∀ {id pos outcome}, (s.cellAt id pos).result = some outcome → outcome.Sound ctx id pos

namespace Session.Sound

variable {ctx : Context} {s : Session} {id : ClauseId} {pos : Nat}

/-- Every position of the input has a column. -/
theorem lt_width (h : s.Sound ctx) (hpos : pos ≤ ctx.input.size) : pos < s.width := by
  rw [h.width]
  omega

/-- Making a position stale keeps a session sound. -/
theorem bumped (h : s.Sound ctx) (hpos : pos ≤ ctx.input.size) : (s.bumped pos).Sound ctx where
  width := by rw [width_bumped, h.width]
  stored := by
    intro other place outcome hresult
    rw [cellAt_bumped (h.lt_width hpos)] at hresult
    exact h.stored hresult

/-- Storing a sound outcome keeps a session sound. -/
theorem withCell (h : s.Sound ctx) (hpos : pos ≤ ctx.input.size) {cell : Cell}
    (hcell : ∀ outcome, cell.result = some outcome → outcome.Sound ctx id pos) :
    (s.withCell id pos cell).Sound ctx where
  width := by rw [width_withCell, h.width]
  stored := by
    intro other place outcome hresult
    rw [cellAt_withCell (h.lt_width hpos)] at hresult
    split at hresult
    · rename_i heq
      rw [heq.1, heq.2]
      exact hcell outcome hresult
    · exact h.stored hresult

/-- Before anything was tried the chart is empty. -/
theorem start (ctx : Context) {work : Option Work} :
    (Session.start ctx.input.size work).Sound ctx where
  width := width_start _
  stored := by
    intro other place outcome hresult
    rw [cellAt_start] at hresult
    cases hresult

end Session.Sound

/-! ## How the chart changes -/

/-- What may become of a cell under evaluation: it stays, or its first lookup finds that it is left
recursive. -/
def Cell.Kept (before after : Cell) : Prop :=
  after = before ∨
    before.result = none ∧
      after = { before with leftRecursive := true, result := some .mismatch }

/-- Of two changes of a cell under evaluation, one does nothing. -/
theorem Cell.Kept.trans {a b c : Cell} (h : a.Kept b) (h' : b.Kept c) : a.Kept c := by
  rcases h with rfl | ⟨hnone, rfl⟩
  · exact h'
  · rcases h' with rfl | ⟨hnone', -⟩
    · exact .inr ⟨hnone, rfl⟩
    · cases hnone'

/-- All cells of a chart. -/
def Everywhere : ClauseId → Nat → Prop := fun _ _ => True

/-- All cells of a chart but one. -/
def Elsewhere (id : ClauseId) (pos : Nat) : ClauseId → Nat → Prop :=
  fun other place => ¬(other = id ∧ place = pos)

/-- One more cell under evaluation. -/
def Entering (busy : ClauseId → Nat → Prop) (id : ClauseId) (pos : Nat) : ClauseId → Nat → Prop :=
  fun other place => busy other place ∨ other = id ∧ place = pos

/-- How a session may change, as far as some of its cells are concerned. -/
structure Session.Evolves (cells : ClauseId → Nat → Prop) (s t : Session) : Prop where
  /-- The same cells are under evaluation. -/
  active : ∀ {id pos}, cells id pos → (t.cellAt id pos).active = (s.cellAt id pos).active
  /-- Cells under evaluation are kept. -/
  kept : ∀ {id pos}, cells id pos → (s.cellAt id pos).active = true →
    (s.cellAt id pos).Kept (t.cellAt id pos)

namespace Session.Evolves

variable {cells fewer : ClauseId → Nat → Prop} {s t u : Session} {id : ClauseId} {pos : Nat}

/-- Sessions with the same cells. -/
theorem of_cellAt_eq (h : ∀ other place, t.cellAt other place = s.cellAt other place) :
    s.Evolves cells t where
  active := by
    intro other place _
    rw [h]
  kept := by
    intro other place _ _
    exact .inl (h other place)

/-- One change after another. -/
theorem trans (h : s.Evolves cells t) (h' : t.Evolves cells u) : s.Evolves cells u where
  active hc := (h'.active hc).trans (h.active hc)
  kept hc hactive := (h.kept hc hactive).trans (h'.kept hc ((h.active hc).trans hactive))

/-- A change seen from fewer cells. -/
theorem mono (h : s.Evolves cells t) (hsub : ∀ {id pos}, fewer id pos → cells id pos) :
    s.Evolves fewer t where
  active hc := h.active (hsub hc)
  kept hc := h.kept (hsub hc)

/-- Making a position stale. -/
theorem bumped (h : pos < s.width) : s.Evolves cells (s.bumped pos) :=
  .of_cellAt_eq fun _ _ => cellAt_bumped h

/-- Storing a cell, seen from the others. -/
theorem withCell {cell : Cell} (h : pos < s.width) :
    s.Evolves (Elsewhere id pos) (s.withCell id pos cell) where
  active := by
    intro other place hc
    rw [cellAt_withCell h, if_neg hc]
  kept := by
    intro other place hc _
    rw [cellAt_withCell h, if_neg hc]
    exact .inl rfl

/-- A change of all other cells and of this one. -/
theorem everywhere (h : s.Evolves (Elsewhere id pos) t)
    (hactive : (t.cellAt id pos).active = (s.cellAt id pos).active)
    (hkept : (s.cellAt id pos).active = true → (s.cellAt id pos).Kept (t.cellAt id pos)) :
    s.Evolves Everywhere t where
  active := by
    intro other place _
    by_cases hc : other = id ∧ place = pos
    · rw [hc.1, hc.2]
      exact hactive
    · exact h.active hc
  kept := by
    intro other place _
    by_cases hc : other = id ∧ place = pos
    · rw [hc.1, hc.2]
      exact hkept
    · exact h.kept hc

end Session.Evolves

/-! ## Cells that are not under evaluation -/

/-- The number of cells that are not under evaluation. -/
def Session.free (ctx : Context) (s : Session) : Nat :=
  ((Finset.range ctx.grammar.clauses.size ×ˢ Finset.range (ctx.input.size + 1)).filter
    fun key => (s.cellAt key.1 key.2).active = false).card

namespace Session

variable {ctx : Context} {s t : Session} {id : ClauseId} {pos : Nat}

/-- Matching gives back the cells that it takes. -/
theorem free_eq (h : s.Evolves Everywhere t) : t.free ctx = s.free ctx := by
  unfold free
  congr 1
  refine Finset.filter_congr fun key _ => ?_
  rw [h.active trivial]

/-- A cell that comes under evaluation is one fewer. -/
theorem free_lt (h : s.Evolves (Elsewhere id pos) t) (hid : ctx.Has id)
    (hpos : pos ≤ ctx.input.size) (hs : (s.cellAt id pos).active = false)
    (ht : (t.cellAt id pos).active = true) : t.free ctx < s.free ctx := by
  refine Finset.card_lt_card (Finset.ssubset_iff_subset_ne.2 ⟨?_, ?_⟩)
  · intro key hkey
    rw [Finset.mem_filter] at hkey ⊢
    refine ⟨hkey.1, ?_⟩
    by_cases hc : key.1 = id ∧ key.2 = pos
    · rw [hc.1, hc.2]
      exact hs
    · rw [← h.active hc]
      exact hkey.2
  · intro heq
    have hmem : (id, pos) ∈ (Finset.range ctx.grammar.clauses.size ×ˢ
        Finset.range (ctx.input.size + 1)).filter
          fun key => (s.cellAt key.1 key.2).active = false := by
      simp only [Finset.mem_filter, Finset.mem_product, Finset.mem_range]
      exact ⟨⟨hid, by omega⟩, hs⟩
    rw [← heq, Finset.mem_filter] at hmem
    have hinactive : (t.cellAt id pos).active = false := hmem.2
    rw [ht] at hinactive
    cases hinactive

/-- There are no more cells than pairs of a clause and a position. -/
theorem free_le (ctx : Context) (s : Session) :
    s.free ctx ≤ ctx.grammar.clauses.size * (ctx.input.size + 1) := by
  refine (Finset.card_filter_le _ _).trans ?_
  rw [Finset.card_product, Finset.card_range, Finset.card_range]

end Session

/-! ## Giving an answer -/

/-- **What matching promises in a session**: a sound outcome, and a sound session that this one may
evolve into. -/
def Answers (ctx : Context) (id : ClauseId) (pos : Nat) (m : MatchM Outcome) (s : Session) : Prop :=
  ∃ outcome t, m.run s = .ok (outcome, t) ∧ t.Sound ctx ∧ s.Evolves Everywhere t ∧
    outcome.Sound ctx id pos

/-- The sessions that a session may evolve into are closed under what evaluation does beside
matching. -/
theorem stable_evolves (ctx : Context) (s : Session) :
    Stable ctx fun t => t.Sound ctx ∧ s.Evolves Everywhere t where
  width h := h.1.width
  noted _ h := ⟨⟨h.1.width, h.1.stored⟩, h.2.trans (.of_cellAt_eq fun _ _ => rfl)⟩
  tallied _ h := ⟨⟨h.1.width, h.1.stored⟩, h.2.trans (.of_cellAt_eq fun _ _ => rfl)⟩
  bumped hpos h := ⟨h.1.bumped hpos, h.2.trans (.bumped (h.1.lt_width hpos))⟩

/-- Answers in every session that this one may evolve into, as a contract. -/
theorem ensures_of_answers {ctx : Context} {id : ClauseId} {pos : Nat} {m : MatchM Outcome}
    {s : Session} (h : ∀ t, t.Sound ctx → s.Evolves Everywhere t → Answers ctx id pos m t) :
    Ensures False (fun t => t.Sound ctx ∧ s.Evolves Everywhere t) m (Outcome.Sound ctx id pos) := by
  refine .of_run fun t ht => ?_
  obtain ⟨outcome, u, hrun, hsound, hevolves, houtcome⟩ := h t ht.1 ht.2
  exact ⟨outcome, u, hrun, ⟨hsound, ht.2.trans hevolves⟩, houtcome⟩

/-- A contract gives an answer. -/
theorem answers_of_ensures {ctx : Context} {id : ClauseId} {pos : Nat} {m : MatchM Outcome}
    {s : Session} (hs : s.Sound ctx)
    (h : Ensures False (fun t => t.Sound ctx ∧ s.Evolves Everywhere t) m
      (Outcome.Sound ctx id pos)) : Answers ctx id pos m s := by
  obtain ⟨outcome, t, hrun, ht, houtcome⟩ := h.run ⟨hs, .of_cellAt_eq fun _ _ => rfl⟩
  exact ⟨outcome, t, hrun, ht.1, ht.2, houtcome⟩

/-! ## Growing a left-recursive match -/

/-- Only a match makes progress. -/
theorem Outcome.exists_node_of_longerThan {new old : Outcome} (h : new.longerThan old = true) :
    ∃ node, new = .matched node := by
  cases new with
  | matched node => exact ⟨node, rfl⟩
  | mismatch | pending => cases h

/-- A match makes progress over a shorter one. -/
theorem Outcome.longerThan_matched (new old : Node) :
    (Outcome.matched new).longerThan (.matched old) = decide (old.len < new.len) := rfl

/-- How often the result in a cell can still be replaced by a longer one, with one round to find
that it cannot. -/
def rounds (inputLen : Nat) (result : Option Outcome) : Nat :=
  match result with
  | none => inputLen + 3
  | some outcome =>
    match outcome.len? with
    | none => inputLen + 2
    | some len => inputLen + 1 - len

/-- No result can be replaced more often than none at all. -/
theorem rounds_le (inputLen : Nat) (result : Option Outcome) :
    rounds inputLen result ≤ inputLen + 3 := by
  unfold rounds
  split
  · exact Nat.le_refl _
  · split <;> omega

/-- A cell under evaluation does not get more rounds. -/
theorem Cell.Kept.rounds_le {before after : Cell} (h : before.Kept after) (inputLen : Nat) :
    rounds inputLen after.result ≤ rounds inputLen before.result := by
  rcases h with rfl | ⟨hnone, rfl⟩
  · exact Nat.le_refl _
  · rw [hnone]
    show inputLen + 2 ≤ inputLen + 3
    omega

/-- The length of a sound outcome. -/
theorem Outcome.Sound.len_le {ctx : Context} {id : ClauseId} {pos len : Nat} {outcome : Outcome}
    (h : outcome.Sound ctx id pos) (hlen : outcome.len? = some len) : len ≤ ctx.input.size := by
  cases outcome with
  | matched node =>
    have hnode := h node rfl
    have hstop := hnode.stop_eq
    have hle := hnode.stop_le
    cases hlen
    show node.len ≤ ctx.input.size
    omega
  | _ => cases hlen

/-- A longer result leaves fewer rounds. -/
theorem rounds_lt {ctx : Context} {id : ClauseId} {pos : Nat} {outcome : Outcome}
    {result : Option Outcome} (hsound : outcome.Sound ctx id pos)
    (h : result.any (!outcome.longerThan ·) = false) :
    rounds ctx.input.size (some outcome) < rounds ctx.input.size result := by
  cases result with
  | none =>
    simp only [rounds]
    split <;> omega
  | some old =>
    have hlonger : outcome.longerThan old = true := by simpa using h
    cases hnew : outcome.len? with
    | none => simp [Outcome.longerThan, hnew] at hlonger
    | some len =>
      have hle := hsound.len_le hnew
      cases hold : old.len? with
      | none =>
        simp only [rounds, hnew, hold]
        omega
      | some oldLen =>
        simp only [Outcome.longerThan, hnew, hold, decide_eq_true_eq] at hlonger
        simp only [rounds, hnew, hold]
        omega

/-- The sessions between the start of an evaluation in the session `s` and its end. -/
structure Growing (ctx : Context) (id : ClauseId) (pos : Nat) (s t : Session) : Prop where
  /-- The session is sound. -/
  sound : t.Sound ctx
  /-- The other cells have evolved. -/
  evolves : s.Evolves (Elsewhere id pos) t
  /-- The cell is under evaluation. -/
  active : (t.cellAt id pos).active = true

namespace Growing

variable {ctx : Context} {id : ClauseId} {pos : Nat} {s t u : Session}

/-- Matching something else goes on. -/
theorem answered (h : Growing ctx id pos s t) (hsound : u.Sound ctx)
    (hevolves : t.Evolves Everywhere u) : Growing ctx id pos s u where
  sound := hsound
  evolves := h.evolves.trans (hevolves.mono fun _ => trivial)
  active := (hevolves.active trivial).trans h.active

/-- Storing a sound outcome in the cell goes on. -/
theorem stored (h : Growing ctx id pos s t) (hpos : pos ≤ ctx.input.size) {cell : Cell}
    (hactive : cell.active = true)
    (hcell : ∀ outcome, cell.result = some outcome → outcome.Sound ctx id pos) :
    Growing ctx id pos s (t.withCell id pos cell) where
  sound := h.sound.withCell hpos hcell
  evolves := h.evolves.trans (.withCell (h.sound.lt_width hpos))
  active := by rw [Session.cellAt_withCell_self (h.sound.lt_width hpos), hactive]

end Growing

/-- Growing a match ends. The induction is on the rounds that are left; a round that stores a result
leaves fewer rounds for the next, since the results get longer and none is longer than the input. -/
theorem growSeed_run {ctx : Context} {id : ClauseId} {pos : Nat} {s : Session}
    {evaluation : MatchM Outcome} (hpos : pos ≤ ctx.input.size)
    (heval : ∀ t, Growing ctx id pos s t → Answers ctx id pos evaluation t) :
    ∀ {fuel : Nat} {t : Session}, Growing ctx id pos s t →
      rounds ctx.input.size (t.cellAt id pos).result ≤ fuel →
      ∃ u, (growSeed evaluation id pos fuel).run t = .ok ((), u) ∧ Growing ctx id pos s u
  | 0, t, hgrow, hfuel => by
    exfalso
    cases hresult : (t.cellAt id pos).result with
    | none => simp [hresult, rounds] at hfuel
    | some outcome =>
      rw [hresult, rounds] at hfuel
      cases hlen : outcome.len? with
      | none => simp [hlen] at hfuel
      | some len =>
        have hle := (hgrow.sound.stored hresult).len_le hlen
        simp only [hlen] at hfuel
        omega
  | fuel + 1, t, hgrow, hfuel => by
    have hcounted : Growing ctx id pos s { t with work := t.work.map fun work =>
        { work with evaluations := work.evaluations + 1 } } :=
      hgrow.answered ⟨hgrow.sound.width, hgrow.sound.stored⟩ (.of_cellAt_eq fun _ _ => rfl)
    obtain ⟨outcome, u, hrun, husound, hevolves, hsound⟩ := heval _ hcounted
    have hnext := hcounted.answered husound hevolves
    have hlt := husound.lt_width hpos
    have hkept : (t.cellAt id pos).Kept (u.cellAt id pos) := hevolves.kept trivial hgrow.active
    have hrounds := (hkept.rounds_le ctx.input.size).trans hfuel
    have hcell : ∀ other, some outcome = some other → other.Sound ctx id pos := by
      intro other hother
      cases hother
      exact hsound
    rw [growSeed, Session.run_bind_of_ok Session.run_tally, Session.run_bind_of_ok hrun,
      Session.run_bind_of_ok (Session.run_cell hlt)]
    split
    · exact ⟨u, rfl, hnext⟩
    · rename_i hlonger
      split
      · exact ⟨_, rfl, hnext.stored hpos hnext.active hcell⟩
      · rw [Session.run_bind_of_ok (Session.run_bump hlt),
          Session.run_bind_of_ok Session.run_storeGrown]
        have hbumped : Growing ctx id pos s (u.bumped pos) :=
          hnext.answered (husound.bumped hpos) (.bumped hlt)
        let grown : Cell :=
          { u.cellAt id pos with result := some outcome, version := u.versionAt pos + 1 }
        have hstored : Growing ctx id pos s ((u.bumped pos).withCell id pos grown) :=
          hbumped.stored hpos hnext.active hcell
        have hgrown : ((u.bumped pos).withCell id pos grown).cellAt id pos = grown :=
          Session.cellAt_withCell_self (hbumped.sound.lt_width hpos)
        have hfewer := rounds_lt hsound (Bool.eq_false_iff.2 hlonger)
        refine growSeed_run hpos heval ?_ ?_
        · exact hstored.answered ⟨hstored.sound.width, hstored.sound.stored⟩
            (.of_cellAt_eq fun _ _ => rfl)
        · show rounds ctx.input.size (((u.bumped pos).withCell id pos grown).cellAt id pos).result ≤ _
          rw [hgrown]
          show rounds ctx.input.size (some outcome) ≤ fuel
          omega

/-! ## Through the chart -/

/-- A clause that is under evaluation is answered from its cell. -/
theorem reenter_answers {ctx : Context} {id : ClauseId} {pos : Nat} {s : Session}
    (hs : s.Sound ctx) (hpos : pos ≤ ctx.input.size) :
    Answers ctx id pos (reenter id pos (s.cellAt id pos)) s := by
  have hsame : s.Evolves Everywhere s := .of_cellAt_eq fun _ _ => rfl
  unfold reenter
  split
  · rename_i node hresult
    exact ⟨_, s, rfl, hs, hsame, hs.stored hresult⟩
  · exact ⟨_, s, rfl, hs, hsame, Outcome.sound_of_not_isMatch rfl⟩
  · rename_i hnone
    have hlt := hs.lt_width hpos
    refine ⟨.pending, _, rfl, hs.withCell hpos ?_, ?_, Outcome.sound_of_not_isMatch rfl⟩
    · intro outcome houtcome
      cases houtcome
      exact Outcome.sound_of_not_isMatch rfl
    · refine (Session.Evolves.withCell hlt).everywhere ?_ fun _ => ?_
      · rw [Session.cellAt_withCell_self hlt]
      · rw [Session.cellAt_withCell_self hlt]
        exact .inr ⟨hnone, rfl⟩

/-- A result that is reused is the stored one. -/
theorem Cell.reusable?_eq_some {cell : Cell} {phase : Phase} {version pos inputLen : Nat}
    {outcome : Outcome} (h : cell.reusable? phase version pos inputLen = some outcome) :
    cell.result = some outcome :=
  (Option.filter_eq_some_iff.1 h).1

/-- Entering a cell keeps its result or drops it. -/
theorem Cell.result_enter {cell : Cell} {phase : Phase} {version : Nat} {outcome : Outcome}
    (h : (cell.enter phase version).result = some outcome) : cell.result = some outcome := by
  unfold Cell.enter at h
  split at h
  · cases h
  · exact h

/-- An entered cell is under evaluation. -/
theorem Cell.active_enter (cell : Cell) (phase : Phase) (version : Nat) :
    (cell.enter phase version).active = true := by
  unfold Cell.enter
  split <;> rfl

/-- Leaving a cell keeps a sound result sound. -/
theorem Cell.sound_leave {ctx : Context} {id : ClauseId} {pos : Nat} {cell : Cell} {phase : Phase}
    {version : Nat} (h : ∀ outcome, cell.result = some outcome → outcome.Sound ctx id pos) :
    ∀ outcome, (cell.leave phase version).result = some outcome → outcome.Sound ctx id pos := by
  intro outcome houtcome
  obtain ⟨old, hold, rfl⟩ := Option.map_eq_some_iff.1 houtcome
  split
  · exact (h old hold).markGrown
  · exact h old hold

/-- A clause that its cell does not answer and that is not under evaluation is evaluated: its cell is
entered, its match grown, and its cell left with what has grown. -/
theorem matchThrough_entered {ctx : Context} {id : ClauseId} {pos : Nat} {s : Session}
    {evaluation : MatchM Outcome} {phase : Phase} (hs : s.Sound ctx) (hpos : pos ≤ ctx.input.size)
    (hreuse : (s.cellAt id pos).reusable? phase (s.versionAt pos) pos ctx.input.size = none)
    (hinactive : (s.cellAt id pos).active = false)
    (heval : ∀ t, Growing ctx id pos s t → Answers ctx id pos evaluation t) :
    ∃ t, (growSeed evaluation id pos (ctx.input.size + 3)).run
        (s.withCell id pos ((s.cellAt id pos).enter phase (s.versionAt pos))) = .ok ((), t) ∧
      Growing ctx id pos s t ∧
      (matchThrough ctx evaluation phase id pos).run s =
        .ok (((t.cellAt id pos).leave phase (t.versionAt pos)).result.getD .mismatch,
          t.withCell id pos ((t.cellAt id pos).leave phase (t.versionAt pos))) := by
  have hlt := hs.lt_width hpos
  have hentered : Growing ctx id pos s
      (s.withCell id pos ((s.cellAt id pos).enter phase (s.versionAt pos))) := by
    refine ⟨hs.withCell hpos fun outcome h => hs.stored (Cell.result_enter h), .withCell hlt, ?_⟩
    rw [Session.cellAt_withCell_self hlt, Cell.active_enter]
  obtain ⟨t, hrun, hgrow⟩ := growSeed_run hpos heval hentered (rounds_le _ _)
  have hlt' := hgrow.sound.lt_width hpos
  refine ⟨t, hrun, hgrow, ?_⟩
  rw [matchThrough, Session.run_bind_of_ok (Session.run_version hlt),
    Session.run_bind_of_ok (Session.run_cell hlt), hreuse]
  simp only [hinactive, Bool.false_eq_true, if_false]
  rw [Session.run_bind_of_ok Session.run_setCell, Session.run_bind_of_ok hrun,
    Session.run_bind_of_ok (Session.run_cell hlt'),
    Session.run_bind_of_ok (Session.run_version hlt'), Session.run_bind_of_ok Session.run_setCell]
  rfl

/-- Matching a clause through its cell gives an answer, provided that evaluating it does whenever
the clause was not under evaluation before. -/
theorem matchThrough_answers {ctx : Context} {id : ClauseId} {pos : Nat} {s : Session}
    {evaluation : MatchM Outcome} {phase : Phase} (hs : s.Sound ctx) (hpos : pos ≤ ctx.input.size)
    (heval : (s.cellAt id pos).active = false →
      ∀ t, Growing ctx id pos s t → Answers ctx id pos evaluation t) :
    Answers ctx id pos (matchThrough ctx evaluation phase id pos) s := by
  have hlt := hs.lt_width hpos
  unfold Answers
  cases hreuse : (s.cellAt id pos).reusable? phase (s.versionAt pos) pos ctx.input.size with
  | some outcome =>
    rw [matchThrough, Session.run_bind_of_ok (Session.run_version hlt),
      Session.run_bind_of_ok (Session.run_cell hlt), hreuse]
    refine ⟨outcome, _, rfl, ⟨hs.width, hs.stored⟩, .of_cellAt_eq fun _ _ => rfl, ?_⟩
    exact hs.stored (Cell.reusable?_eq_some hreuse)
  | none =>
    by_cases hactive : (s.cellAt id pos).active = true
    · rw [matchThrough, Session.run_bind_of_ok (Session.run_version hlt),
        Session.run_bind_of_ok (Session.run_cell hlt), hreuse]
      simp only [hactive, if_true]
      exact reenter_answers hs hpos
    · have hinactive : (s.cellAt id pos).active = false := Bool.eq_false_iff.2 hactive
      obtain ⟨t, -, hgrow, hrun⟩ := matchThrough_entered hs hpos hreuse hinactive (heval hinactive)
      have hlt' := hgrow.sound.lt_width hpos
      have hleft : ∀ outcome, ((t.cellAt id pos).leave phase (t.versionAt pos)).result = some outcome →
          outcome.Sound ctx id pos :=
        Cell.sound_leave fun outcome h => hgrow.sound.stored h
      refine ⟨_, _, hrun, hgrow.sound.withCell hpos hleft, ?_, ?_⟩
      · refine (hgrow.evolves.trans (.withCell hlt')).everywhere ?_ fun h => absurd h hactive
        rw [Session.cellAt_withCell_self hlt', hinactive]
        rfl
      · intro node hnode
        cases hresult : ((t.cellAt id pos).leave phase (t.versionAt pos)).result with
        | none =>
          rw [hresult] at hnode
          cases hnode
        | some outcome =>
          rw [hresult] at hnode
          exact hleft outcome hresult node hnode

/-! ## Any clause -/

/-- Going from one clause to the next, a chain of references gets shorter. -/
theorem endsInBody_target {clauses : Array Clause} {fuel : Nat} {id target : ClauseId}
    {name : String} (hid : clauses[id]? = some (.reference name target))
    (h : endsInBody clauses (fuel + 1) id = true) : endsInBody clauses fuel target = true := by
  rw [endsInBody, hid] at h
  exact h

/-- **Matching a clause gives an answer.** The depth has to suffice for the chain of references that
starts at the clause and for one chain more, as long as a chain can be, for each cell that is not
under evaluation. -/
theorem matchClause_answers {ctx : Context} (hg : ctx.grammar.WellFormed) :
    ∀ {depth : Nat} {phase : Phase} {id : ClauseId} {pos : Nat} {bound : Option ClauseId}
      {s : Session} {passes : Nat}, s.Sound ctx → ctx.Has id → (∀ other ∈ bound, ctx.Has other) →
      pos ≤ ctx.input.size → endsInBody ctx.grammar.clauses (passes + 1) id = true →
      s.free ctx * (ctx.grammar.clauses.size + 1) + passes < depth →
      Answers ctx id pos (matchClause ctx depth phase id pos bound) s
  | 0, _, _, _, _, _, _, _, _, _, _, _, hdepth => by omega
  | depth + 1, phase, id, pos, bound, s, passes, hs, hid, hbound, hpos, hends, hdepth => by
    obtain ⟨clause, hclause⟩ := hid.exists_clause
    have hchildren : ∀ child ∈ clause.children, ctx.Has child := hg.children_lt hclause
    rw [matchClause_succ, matchWith_of_clause (by omega) hclause]
    cases hkind : clause.isReference with
    | true =>
      rw [if_pos rfl]
      obtain ⟨name, target, rfl⟩ : ∃ name target, clause = .reference name target := by
        cases clause with
        | reference name target => exact ⟨name, target, rfl⟩
        | _ => cases hkind
      have htarget : ctx.Has target := hchildren target List.mem_cons_self
      have hchain := endsInBody_target hclause hends
      obtain ⟨passes, rfl⟩ : ∃ k, passes = k + 1 := by
        cases passes with
        | zero => simp [endsInBody] at hchain
        | succ k => exact ⟨k, rfl⟩
      refine answers_of_ensures hs (evaluateReference_ensures hclause ?_)
      refine ensures_of_answers fun t ht hevolves => ?_
      refine matchClause_answers hg ht htarget hbound hpos hchain ?_
      rw [Session.free_eq hevolves]
      omega
    | false =>
      rw [if_neg (by simp)]
      refine matchThrough_answers hs hpos fun hinactive t hgrow => ?_
      -- The clause itself is under evaluation now, so a chain for each free cell is still there.
      have hfewer := Session.free_lt hgrow.evolves hid hpos hinactive hgrow.active
      have hless : (t.free ctx + 1) * (ctx.grammar.clauses.size + 1)
          ≤ s.free ctx * (ctx.grammar.clauses.size + 1) := Nat.mul_le_mul_right _ hfewer
      refine answers_of_ensures hgrow.sound
        (evaluate_ensures (stable_evolves ctx t) ?_ hclause hkind hchildren hbound hpos)
      intro phase' other place bound' hother hbound' hplace
      refine ensures_of_answers fun u hu hevolves => ?_
      refine matchClause_answers hg hu hother hbound' hplace (hg.chain_ends other hother) ?_
      rw [Session.free_eq hevolves]
      rw [Nat.add_mul, Nat.one_mul] at hless
      omega

/-- The depth of a run suffices for every clause in a session where nothing is under evaluation. -/
theorem Context.depth_suffices (ctx : Context) (s : Session) :
    s.free ctx * (ctx.grammar.clauses.size + 1) + ctx.grammar.clauses.size < ctx.depth := by
  have hle : s.free ctx * (ctx.grammar.clauses.size + 1) ≤
      ctx.grammar.clauses.size * (ctx.input.size + 1) * (ctx.grammar.clauses.size + 1) :=
    Nat.mul_le_mul_right _ (s.free_le ctx)
  rw [Context.depth, Nat.add_mul (_ * _), Nat.one_mul]
  omega

end Packrat
