import Packrat.Proofs.Delimiters
import Packrat.Proofs.Storing

/-!
# Delimiters in a parse

The bound of a repetition is not part of the key under which its match is stored. A repetition that
plain matching has taken past the delimiter is found again with its bound ignored, and the search for
a repair ignores the bound altogether. What holds of every parse all the same is said here.

* `Session.Guarded` — the invariant: all stored matches heed the text, and a lookup of the text itself
  is answered as the input has it.
* `matchThrough_known`, `matchThrough_text` — the text through the chart, which changes its own cell
  only; `matchClause_guarded` — any clause.
* **`parse_keeps_delimiters_out`** — the repaired repetitions of a parse.
* `parse_swallows_delimiter` — a repetition that needed no repair can take its delimiter in.
-/

namespace Packrat

/-! ## The chart -/

/-- Whether a cell of the text is not under evaluation and holds nothing but what a lookup gives. -/
structure Cell.HoldsText (ctx : Context) (text : List Char) (id : ClauseId) (pos : Nat)
    (cell : Cell) : Prop where
  /-- The text is not under evaluation. -/
  inactive : cell.active = false
  /-- It never comes back to itself. -/
  direct : cell.leftRecursive = false
  /-- What is stored is right. -/
  stored : ∀ outcome, cell.result = some outcome → outcome = textOutcome ctx text id pos

/-- **The invariant of a session**: what the chart holds is guarded, and the cells of the text hold
what the input has. -/
structure Session.Guarded (ctx : Context) (text : List Char) (bounded : ClauseId → Bool)
    (s : Session) : Prop where
  /-- There is a column for each position. -/
  width : s.width = ctx.input.size + 1
  /-- Stored matches are guarded. -/
  stored : ∀ {id pos outcome}, (s.cellAt id pos).result = some outcome →
    outcome.Guarded ctx text bounded pos
  /-- The text is stored as it stands. -/
  texts : ∀ {id pos}, ctx.grammar.clause? id = some (.literal text) →
    (s.cellAt id pos).HoldsText ctx text id pos

namespace Session.Guarded

variable {ctx : Context} {text : List Char} {bounded : ClauseId → Bool} {s t : Session}
  {id : ClauseId} {pos : Nat}

/-- Every position of the input has a column. -/
theorem lt_width (h : s.Guarded ctx text bounded) (hpos : pos ≤ ctx.input.size) : pos < s.width := by
  rw [h.width]
  omega

/-- Only the shape and the cells of a chart matter. -/
theorem of_agrees (h : s.Guarded ctx text bounded) (hagrees : s.Agrees t) :
    t.Guarded ctx text bounded where
  width := by rw [hagrees.width, h.width]
  stored := by
    intro other place outcome hresult
    rw [hagrees.cell] at hresult
    exact h.stored hresult
  texts := by
    intro other place hother
    rw [hagrees.cell]
    exact h.texts hother

/-- Events and counters do not matter. -/
theorem of_chart_eq (h : s.Guarded ctx text bounded) (heq : t.chart = s.chart) :
    t.Guarded ctx text bounded := h.of_agrees (.of_chart_eq heq)

/-- Storing a guarded outcome, or the text as it stands. -/
theorem withCell (h : s.Guarded ctx text bounded) (hpos : pos ≤ ctx.input.size) {cell : Cell}
    (hcell : ∀ outcome, cell.result = some outcome → outcome.Guarded ctx text bounded pos)
    (htext : ctx.grammar.clause? id = some (.literal text) → cell.HoldsText ctx text id pos) :
    (s.withCell id pos cell).Guarded ctx text bounded where
  width := by rw [width_withCell, h.width]
  stored := by
    intro other place outcome hresult
    rw [cellAt_withCell (h.lt_width hpos)] at hresult
    split at hresult
    · rename_i heq
      rw [heq.2]
      exact hcell outcome hresult
    · exact h.stored hresult
  texts := by
    intro other place hother
    rw [cellAt_withCell (h.lt_width hpos)]
    split
    · rename_i heq
      obtain ⟨rfl, rfl⟩ := heq
      exact htext hother
    · exact h.texts hother

/-- What an evaluation does beside matching does not matter. -/
theorem stable (ctx : Context) (text : List Char) (bounded : ClauseId → Bool) :
    Stable ctx (Session.Guarded ctx text bounded) where
  width h := h.width
  noted _ h := h.of_chart_eq rfl
  tallied _ h := h.of_chart_eq rfl
  bumped := by
    intro s pos hpos h
    refine ⟨by rw [width_bumped, h.width], ?_, ?_⟩
    · intro other place outcome hresult
      rw [cellAt_bumped (h.lt_width hpos)] at hresult
      exact h.stored hresult
    · intro other place hother
      rw [cellAt_bumped (h.lt_width hpos)]
      exact h.texts hother

/-- Before anything was tried the chart is empty. -/
theorem start (ctx : Context) (text : List Char) (bounded : ClauseId → Bool)
    {work : Option Work} : (Session.start ctx.input.size work).Guarded ctx text bounded where
  width := width_start _
  stored := by
    intro other place outcome hresult
    rw [cellAt_start] at hresult
    cases hresult
  texts := by
    intro other place _
    rw [cellAt_start]
    exact ⟨rfl, rfl, nofun⟩

end Session.Guarded

section chart

variable {ctx : Context} {text : List Char} {bounded : ClauseId → Bool} {id : ClauseId} {pos : Nat}
  {evaluation : MatchM Outcome} {phase : Phase}

/-- Growing a match that is known: one round stores it, unless it is there already. -/
theorem growSeed_known {outcome : Outcome} {s : Session} {cell : Cell} (hlt : pos < s.width)
    (hcell : s.cellAt id pos = cell) (hdirect : cell.leftRecursive = false)
    (hstored : ∀ stored, cell.result = some stored → stored = outcome) (fuel : Nat) :
    ∃ t, (growSeed (pure outcome) id pos (fuel + 1)).run s = .ok ((), t) ∧
      (s.withCell id pos { cell with result := some outcome }).Agrees t := by
  let counted : Session :=
    { s with work := s.work.map fun work => { work with evaluations := work.evaluations + 1 } }
  have hcounted : s.Agrees counted := .counted s _
  have hread : (Session.cell id pos).run counted = .ok (cell, counted) := by
    rw [Session.run_cell (by rwa [hcounted.width]), hcounted.cell, hcell]
  rw [growSeed, Session.run_bind_of_ok Session.run_tally, pure_bind, Session.run_bind_of_ok hread]
  by_cases hkept : cell.result.any (!outcome.longerThan ·) = true
  · rw [if_pos hkept]
    refine ⟨counted, rfl, ?_⟩
    obtain ⟨stored, hsome, -⟩ := (Option.any_eq_true _ _).1 hkept
    have hsame : { cell with result := some outcome } = s.cellAt id pos := by
      rw [hcell, ← hstored stored hsome, ← hsome]
    rw [hsame]
    exact (Session.Agrees.withCell_self hlt).trans hcounted
  · rw [if_neg hkept, hdirect]
    exact ⟨_, rfl, hcounted.withCell hlt _⟩

/-- **Matching a text whose cell holds it** gives what the input has, and changes no other cell. -/
theorem matchThrough_known {s : Session} (hlt : pos < s.width)
    (htext : (s.cellAt id pos).HoldsText ctx text id pos) :
    ∃ left t, left.HoldsText ctx text id pos ∧ (s.withCell id pos left).Agrees t ∧
      (matchThrough ctx (pure (textOutcome ctx text id pos)) phase id pos).run s =
        .ok (textOutcome ctx text id pos, t) := by
  rw [matchThrough, Session.run_bind_of_ok (Session.run_version hlt),
    Session.run_bind_of_ok (Session.run_cell hlt)]
  cases hreuse : (s.cellAt id pos).reusable? phase (s.versionAt pos) pos ctx.input.size with
  | some stored =>
    obtain rfl := htext.stored stored (Cell.reusable?_eq_some hreuse)
    exact ⟨s.cellAt id pos, _, htext, (Session.Agrees.withCell_self hlt).trans (.counted s _), rfl⟩
  | none =>
    simp only [htext.inactive, Bool.false_eq_true, if_false]
    rw [Session.run_bind_of_ok Session.run_setCell]
    generalize hentered : (s.cellAt id pos).enter phase (s.versionAt pos) = entered
    have hdirect : entered.leftRecursive = false := by
      rw [← hentered, Cell.enter]
      split <;> exact htext.direct
    have hkept : ∀ stored, entered.result = some stored → stored = textOutcome ctx text id pos := by
      intro stored hstored
      rw [← hentered] at hstored
      exact htext.stored stored (Cell.result_enter hstored)
    have hlt' : pos < (s.withCell id pos entered).width := by rwa [Session.width_withCell]
    obtain ⟨t, hgrow, hagrees⟩ := growSeed_known hlt' (Session.cellAt_withCell_self hlt) hdirect hkept
      (ctx.input.size + 2)
    have hltt : pos < t.width := by rwa [hagrees.width, Session.width_withCell]
    have hcell : t.cellAt id pos =
        { entered with result := some (textOutcome ctx text id pos) } := by
      rw [hagrees.cell, Session.cellAt_withCell_self hlt']
    rw [Session.run_bind_of_ok hgrow, Session.run_bind_of_ok (Session.run_cell hltt),
      Session.run_bind_of_ok (Session.run_version hltt), Session.run_bind_of_ok Session.run_setCell,
      hcell]
    generalize hleft : Cell.leave _ phase (t.versionAt pos) = left
    have hresult : left.result = some (textOutcome ctx text id pos) := by
      rw [← hleft, Cell.leave]
      simp only [hdirect, Bool.false_and, Bool.false_eq_true, if_false, Option.map_some]
    have hholds : left.HoldsText ctx text id pos := by
      refine ⟨by rw [← hleft]; rfl, by rw [← hleft]; exact hdirect, fun outcome houtcome => ?_⟩
      rw [hresult] at houtcome
      exact (Option.some.inj houtcome).symm
    have hsame : (s.withCell id pos left).Agrees (t.withCell id pos left) :=
      (Session.Agrees.withCell_withCell hlt _ left).trans
        ((Session.Agrees.withCell_withCell hlt' _ left).trans
          (hagrees.withCell (by rwa [Session.width_withCell]) left))
    refine ⟨left, _, hholds, hsame, ?_⟩
    rw [hresult]
    rfl

/-- What a lookup of the text gives is guarded. -/
theorem textOutcome_guarded : (textOutcome ctx text id pos).Guarded ctx text bounded pos := by
  unfold textOutcome
  split
  · exact Outcome.guarded_matched Node.guarded_leaf
  · exact Outcome.guarded_of_not_isMatch rfl

/-- **Matching the text through the chart** gives what the input has. -/
theorem matchThrough_text (hid : ctx.grammar.clause? id = some (.literal text))
    (hpos : pos ≤ ctx.input.size) :
    Ensures True (Session.Guarded ctx text bounded)
      (matchThrough ctx (pure (textOutcome ctx text id pos)) phase id pos)
      (· = textOutcome ctx text id pos) := by
  refine .of_run fun s hs => ?_
  obtain ⟨left, t, hleft, hagrees, hrun⟩ := matchThrough_known (hs.lt_width hpos) (hs.texts hid)
  refine ⟨_, t, hrun, (hs.withCell hpos ?_ fun _ => hleft).of_agrees hagrees, rfl⟩
  intro outcome houtcome
  rw [hleft.stored outcome houtcome]
  exact textOutcome_guarded

/-- The cells of other clauses hold guarded matches. -/
theorem holds_guarded (hpos : pos ≤ ctx.input.size)
    (hid : ctx.grammar.clause? id ≠ some (.literal text)) :
    Holds ctx (Session.Guarded ctx text bounded) (Outcome.Guarded ctx text bounded pos) id pos where
  stable := Session.Guarded.stable ctx text bounded
  stored hs := hs.stored
  withCell hs hcell := hs.withCell hpos hcell fun h => absurd h hid
  of_not_isMatch := Outcome.guarded_of_not_isMatch
  markGrown := .markGrown

end chart

/-- **Any clause.** The induction is on the depth. -/
theorem matchClause_guarded {ctx : Context} {text : List Char} {bounded : ClauseId → Bool}
    (htext : text ≠ []) (hdelimits : ctx.grammar.delimits text bounded = true) :
    ∀ depth : Nat, (matchClause ctx depth).Guards ctx text bounded (Session.Guarded ctx text bounded)
  | 0 => ⟨fun _ => .throw trivial, fun _ _ => .throw trivial⟩
  | depth + 1 => by
    have hM := matchClause_guarded htext hdelimits depth
    refine ⟨?_, ?_⟩
    · intro phase id pos bound hbound
      rw [matchClause_succ]
      refine matchWith_ensures (fun _ => Outcome.guarded_of_not_isMatch rfl) fun {clause} hclause hpos => ?_
      have heval : Ensures True (Session.Guarded ctx text bounded)
          (evaluate ctx (matchClause ctx depth) phase id clause pos bound)
          (Outcome.Guarded ctx text bounded pos) :=
        evaluate_guarded htext (Session.Guarded.stable ctx text bounded) hM hbound hclause
          (Grammar.clauseDelimits_of_delimits hdelimits hclause)
      split
      · exact heval
      · by_cases hliteral : clause = .literal text
        · subst hliteral
          refine (matchThrough_text hclause hpos).mono fun outcome houtcome => ?_
          rw [houtcome]
          exact textOutcome_guarded
        · refine matchThrough_holds (holds_guarded hpos ?_) hpos heval
          rw [hclause]
          exact fun h => hliteral (Option.some.inj h)
    · intro delimiter pos hdelimiter hpos
      rw [matchClause_succ, matchWith_of_clause hpos hdelimiter]
      exact matchThrough_text hdelimiter hpos

/-! ## Parses -/

/-- The phases of a parse. -/
theorem Job.matchPhases_guarded {job : Job} {text : List Char} {bounded : ClauseId → Bool}
    (htext : text ≠ []) (hdelimits : job.grammar.delimits text bounded = true)
    (htop : bounded job.top = false) :
    Ensures True (Session.Guarded job.context text bounded) job.matchPhases
      fun result => result.1.Guarded job.context text bounded 0 := by
  have hmatch : ∀ phase, Ensures True (Session.Guarded job.context text bounded)
      (job.matchTop phase) (Outcome.Guarded job.context text bounded 0) :=
    fun phase => (matchClause_guarded htext hdelimits _).guarded (underBound_of_not_bounded htop)
  have hnote : ∀ event, Ensures True (Session.Guarded job.context text bounded) (Session.note event)
      fun _ => True :=
    fun event => ((Session.Guarded.stable job.context text bounded).note event).of_total
  unfold matchPhases
  refine .bind (hnote _) fun _ _ => .bind (hmatch _) fun outcome houtcome => ?_
  split
  · exact .pure houtcome
  · split
    · exact .pure houtcome
    · exact .bind (hnote _) fun _ _ => .bind (hmatch _) fun repaired hrepaired => .pure hrepaired

/-- **A repetition that is repaired stops before its delimiter.** Let certain clauses of a built grammar
be followed by a text wherever they are used, and let the top rule not be one of them. Then the result
of a parse exists, over every input and under every configuration; and in its tree a match of a
repetition among these clauses in which input was passed over has no iteration that starts at the
text, except directly after the input that was passed over. -/
theorem parse_keeps_delimiters_out {definitions : List Definition} {g : Grammar}
    (hb : Grammar.build definitions = .ok g) {rule : String} {top : ClauseId}
    (hr : g.rule? rule = some top) {text : List Char} (htext : text ≠ [])
    {bounded : ClauseId → Bool} (hdelimits : g.delimits text bounded = true)
    (htop : bounded top = false) (input : String) (config : Config) :
    ∃ p, parse g rule input config = .ok p ∧
      ∀ node ∈ p.root.nodes, node.Heeds ⟨g, input.toList.toArray⟩ text bounded := by
  have hg := build_wellFormed hb
  let job := g.job rule top input config
  have hphases := Job.matchPhases_ensures (show job.grammar.WellFormed from hg) (hg.rule?_lt hr)
  obtain ⟨⟨outcome, hasErrors⟩, session, hrun, -⟩ := hphases.run job.start_sound
  obtain ⟨events, hexecute⟩ := Job.execute_of_run hrun
  have hguarded : Ensures True (Session.Guarded job.context text bounded) job.matchPhases
      fun result => result.1.Guarded job.context text bounded 0 :=
    Job.matchPhases_guarded htext hdelimits htop
  obtain ⟨-, houtcome⟩ := hguarded.of_ok (Session.Guarded.start job.context text bounded) hrun
  refine ⟨_, parse_eq_ok (Job.make_eq_ok hr) hexecute, ?_⟩
  cases outcome with
  | matched node => exact (houtcome node rfl).heeds
  | mismatch | pending => exact heeds_skipped

/-- A word in brackets with a mark at its end. -/
def bracketDefinitions : List Definition :=
  [⟨"S", .seq [.lit "<", .reference "A", .lit "end", .lit ">"]⟩, ⟨"A", .plus (.range 'a' 'z')⟩]

/-- The grammar of words in brackets. -/
def bracketGrammar : Grammar where
  clauses := #[.literal ['<'], .reference "A" 6, .literal ['e', 'n', 'd'], .literal ['>'],
    .seq [0, 1, 2, 3], .charClass [⟨'a', 'z'⟩] false, .repeated 5 true]
  rules := [⟨"S", false, 4⟩, ⟨"A", false, 6⟩]

/-- The letters of a word are followed by the mark. -/
def bracketBounded (id : ClauseId) : Bool := id = 1 || id = 6

/-- A word with a character that fits nowhere: after that it stops before the mark. -/
theorem parse_keeps_delimiters_out_bracket :
    Grammar.build bracketDefinitions = .ok bracketGrammar ∧
      ∃ p word, parse bracketGrammar "S" "<?xend" {} = .ok p ∧ word ∈ p.root.nodes ∧
        word = .wrap 6 [.skipped 1 1, .terminal 5 2 1] true ∧
        word.Heeds ⟨bracketGrammar, "<?xend".toList.toArray⟩ ['e', 'n', 'd'] bracketBounded := by
  have hb : Grammar.build bracketDefinitions = .ok bracketGrammar := rfl
  have hr : bracketGrammar.rule? "S" = some 4 := rfl
  obtain ⟨p, hp, hheeds⟩ := parse_keeps_delimiters_out hb hr (List.cons_ne_nil 'e' ['n', 'd'])
    (show bracketGrammar.delimits ['e', 'n', 'd'] bracketBounded = true by decide) rfl "<?xend" {}
  have hword : (parse bracketGrammar "S" "<?xend" {}).toOption.map
      (fun p => decide (Node.wrap 6 [.skipped 1 1, .terminal 5 2 1] true ∈ p.root.nodes)) =
        some true := by decide +kernel
  rw [hp] at hword
  have hmem := of_decide_eq_true (Option.some.inj hword)
  exact ⟨hb, p, _, hp, hmem, rfl, hheeds _ hmem⟩

/-- **A delimiter can be swallowed.** Plain matching takes the mark for letters of the word and fails
where it looks for the mark. With repairs the word is found in the chart as it is, although the mark
now bounds it; what is missing after it is taken as present. Nor does a repair look for the mark: the
word goes on with its first letter. -/
theorem parse_swallows_delimiter :
    Grammar.build bracketDefinitions = .ok bracketGrammar ∧
      bracketGrammar.delimits ['e', 'n', 'd'] bracketBounded = true ∧
      startsAt "<xend".toList.toArray ['e', 'n', 'd'] 2 = true ∧
      (parse bracketGrammar "S" "<xend" {}).toOption.map Parse.root =
        some (.wrap 4 [.terminal 0 0 1,
          .wrapOne 1 (.wrap 6 [.terminal 5 1 1, .terminal 5 2 1, .terminal 5 3 1, .terminal 5 4 1]
            true) true,
          .deleted 5 2, .deleted 5 3] true) ∧
      startsAt "<x?end".toList.toArray ['e', 'n', 'd'] 3 = true ∧
      (parse bracketGrammar "S" "<x?end" {}).toOption.map Parse.root =
        some (.wrap 4 [.terminal 0 0 1,
          .wrapOne 1 (.wrap 6 [.terminal 5 1 1, .skipped 2 1, .terminal 5 3 1, .terminal 5 4 1,
            .terminal 5 5 1] true) true,
          .deleted 6 2, .deleted 6 3] true) := by
  refine ⟨rfl, ?_, ?_, ?_, ?_, ?_⟩ <;> decide +kernel

end Packrat
