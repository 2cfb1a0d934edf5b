import Packrat.Proofs.Literals
import Packrat.Proofs.Parsing
import Packrat.Proofs.Throughout

/-!
# What is passed over before a literal

A sequence that is repaired takes its literals up where they are due. It passes over neither the
literal that it looks for, nor more input than a longer literal has characters, nor the literal that
comes next.

* `Passable` — what may be passed over before a literal.
* `SkipsFairly`, `Node.Fair` — the children of a sequence between which nothing else is passed over, and
  the condition on one node.
* `Elements.after_skip` — what comes after input that was passed over is the match of an element.
* `evaluateElements_fair`, `evaluate_fair` — the elements of a sequence, and any clause.
* `Session.Fair` — the invariant: all stored trees are fair, and literals are stored as they stand.
* **`parse_skips_fairly`** — all sequences of all parses.
-/

namespace Packrat

/-! ## Passing over input -/

/-- **What may be passed over before a literal**, if `next` is the element of the sequence after it. -/
structure Passable (g : Grammar) (text : List Char) (next : Option ClauseId) (skipped : List Char) :
    Prop where
  /-- The literal is not passed over. -/
  absent : ¬ text <:+: skipped
  /-- A literal of several characters passes over no more than it has. -/
  short : 2 ≤ text.length → skipped.length ≤ text.length
  /-- A literal of one character passes over one character, or not over the literal after it. -/
  clear : text.length = 1 → 2 ≤ skipped.length → ∀ id other, next = some id →
    g.clause? id = some (.literal other) → ¬ other <:+: skipped

/-- The number of children that are no input passed over, and so of the elements that they stand
for. -/
def elementCount (children : List Node) : Nat := children.countP fun child => !child.isSkip

/-- A child that stands for an element. -/
theorem elementCount_cons {node : Node} (h : node.isSkip = false) (children : List Node) :
    elementCount (node :: children) = elementCount children + 1 := by
  simp [elementCount, h]

/-- Input passed over. -/
theorem elementCount_skipped (pos len : Nat) (children : List Node) :
    elementCount (.skipped pos len :: children) = elementCount children := by
  simp [elementCount, Node.isSkip]

/-- **Whether a sequence with these children passes over nothing but what it may** before its
literals. -/
def SkipsFairly (ctx : Context) (elements : List ClauseId) (children : List Node) : Prop :=
  ∀ before pos len node after, children = before ++ .skipped pos len :: node :: after →
    ∀ element text, elements[elementCount before]? = some element →
      ctx.grammar.clause? element = some (.literal text) →
      Passable ctx.grammar text elements[elementCount before + 1]? (slice ctx.input pos len).toList

/-- The condition on one node of a match tree. -/
def Node.Fair (ctx : Context) : Node → Prop
  | .clause info children => ∀ elements, ctx.grammar.clause? info.clause = some (.seq elements) →
    SkipsFairly ctx elements children
  | _ => True

namespace SkipsFairly

variable {ctx : Context} {elements : List ClauseId} {element : ClauseId} {node : Node}
  {nodes : List Node}

/-- Children without input passed over. -/
theorem of_forall (h : ∀ child ∈ nodes, child.isSkip = false) : SkipsFairly ctx elements nodes := by
  rintro before pos len node after rfl
  have hskip := h (.skipped pos len) (by simp)
  cases hskip

/-- One match more. -/
theorem cons (hnode : node.isSkip = false) (h : SkipsFairly ctx elements nodes) :
    SkipsFairly ctx (element :: elements) (node :: nodes) := by
  intro before pos len other after heq
  cases before with
  | nil =>
    cases heq
    cases hnode
  | cons first before =>
    obtain ⟨rfl, hrest⟩ := List.cons.inj heq
    rw [elementCount_cons hnode, List.getElem?_cons_succ, List.getElem?_cons_succ]
    exact h before pos len other after hrest

/-- Input that is passed over and the match after it. -/
theorem resumed {pos len : Nat} (hnode : node.isSkip = false)
    (hskip : ∀ text, ctx.grammar.clause? element = some (.literal text) →
      Passable ctx.grammar text elements.head? (slice ctx.input pos len).toList)
    (h : SkipsFairly ctx elements nodes) :
    SkipsFairly ctx (element :: elements) (.skipped pos len :: node :: nodes) := by
  intro before place width other after heq
  cases before with
  | nil =>
    cases heq
    intro found text hfound htext
    cases hfound
    rw [List.head?_eq_getElem?] at hskip
    exact hskip text htext
  | cons first before =>
    obtain ⟨rfl, hrest⟩ := List.cons.inj heq
    rw [elementCount_skipped]
    exact h.cons hnode before place width other after hrest

end SkipsFairly

/-- **Input is passed over before an element**, and its match is the next child. -/
theorem Elements.after_skip {inputLen start stop : Nat} {elements : List ClauseId} {children : List Node}
    (h : Elements inputLen elements start children stop) :
    ∀ {before pos len after}, children = before ++ .skipped pos len :: after →
      ∃ element node rest, elements[elementCount before]? = some element ∧ after = node :: rest ∧
        node.IsMatch element (pos + len) := by
  induction h with
  | nil => simp
  | @matched element rest pos stop node nodes hnode _ ih =>
    intro before place len after heq
    cases before with
    | nil =>
      obtain ⟨rfl, -⟩ := List.cons.inj heq
      cases hnode.not_isSkip
    | cons first before =>
      obtain ⟨rfl, hrest⟩ := List.cons.inj heq
      rw [elementCount_cons hnode.not_isSkip, List.getElem?_cons_succ]
      exact ih hrest
  | @resumed element rest pos skip stop node nodes hnode _ ih =>
    intro before place len after heq
    match before, heq with
    | [], heq =>
      cases heq
      exact ⟨element, node, nodes, rfl, rfl, hnode⟩
    | [_], heq =>
      cases heq
      cases hnode.not_isSkip
    | _ :: _ :: before, heq =>
      cases heq
      rw [elementCount_skipped, elementCount_cons hnode.not_isSkip, List.getElem?_cons_succ]
      exact ih rfl
  | missing =>
    intro before place len after heq
    have hmem : Node.skipped place len ∈ before ++ .skipped place len :: after := by simp
    rw [← heq] at hmem
    obtain ⟨_, -, hskip⟩ := List.mem_map.1 hmem
    cases hskip

/-- What a repair of a sequence does not refuse may be passed over. -/
theorem passable_of_not_leaps {ctx : Context} {text : List Char} {next : Option ClauseId}
    {pos skip : Nat} (hfailed : startsAt ctx.input text pos = false)
    (hnext : leapsNext ctx.input (.literal text) (next.bind ctx.grammar.clause?) pos skip = false)
    (hself : leapsSelf ctx.input (.literal text) pos skip = false) :
    Passable ctx.grammar text next (slice ctx.input pos skip).toList := by
  have hlength : (slice ctx.input pos skip).toList.length ≤ skip := by
    rw [toList_slice]
    exact List.length_take_le _ _
  rw [leapsSelf, Bool.and_eq_false_iff, Bool.or_eq_false_iff, decide_eq_false_iff_not,
    decide_eq_false_iff_not] at hself
  have habsent : ¬ text <:+: (slice ctx.input pos skip).toList := by
    intro hinside
    rcases hself with hshort | ⟨-, hclear⟩
    · -- As much as the literal has holds it only if it stands at the start.
      obtain ⟨k, hk, hstarts⟩ := exists_startsAt_of_slice hinside
      obtain rfl : k = 0 := by omega
      rw [Nat.add_zero, hfailed] at hstarts
      cases hstarts
    · rw [occursWithin_of_slice hinside] at hclear
      cases hclear
  refine ⟨habsent, fun hlong => ?_, fun hone htwo id other hid hother hinside => ?_⟩
  · rcases hself with hshort | ⟨hone, -⟩
    · omega
    · omega
  · obtain ⟨c, rfl⟩ := List.length_eq_one_iff.1 hone
    rw [hid, Option.bind_some, hother] at hnext
    simp only [leapsNext, Bool.and_eq_false_iff, decide_eq_false_iff_not] at hnext
    rcases hnext with hshort | hclear
    · omega
    · rw [occursWithin_of_slice hinside] at hclear
      cases hclear

/-! ## Sequences -/

/-- What matching a clause gives: a fair tree, and no failure of a literal that stands there. -/
structure Outcome.Fair (ctx : Context) (id : ClauseId) (pos : Nat) (outcome : Outcome) : Prop where
  /-- All nodes of a match are fair. -/
  throughout : outcome.Throughout (Node.Fair ctx)
  /-- A literal that fails does not stand there. -/
  failed : outcome.isMatch = false → pos < ctx.input.size → ∀ text,
    ctx.grammar.clause? id = some (.literal text) → startsAt ctx.input text pos = false

/-- A repair of a sequence that passes over nothing but what it may, if its element is a literal that
does not stand at the position. -/
def SequenceRepair.Fair (ctx : Context) (failed : ClauseId) (next : Option ClauseId) (pos : Nat) :
    SequenceRepair → Prop
  | .deleteRest => True
  | .skip len node => pos < ctx.input.size ∧ (node.isSkip = false ∧ node.Throughout (Node.Fair ctx)) ∧
    ∀ text, ctx.grammar.clause? failed = some (.literal text) →
      startsAt ctx.input text pos = false →
      Passable ctx.grammar text next (slice ctx.input pos len).toList

section sequences

variable {ctx : Context} {I : Session → Prop} {matcher : Matcher} {phase : Phase} {id : ClauseId}
  {bound : Option ClauseId}

/-- Looking up a clause: what is not in the table breaks a run off. -/
theorem clause_partial (id : ClauseId) :
    Ensures True I (ctx.clause id) fun clause => ctx.grammar.clause? id = some clause := by
  unfold Context.clause
  split
  · rename_i clause hclause
    exact .pure hclause
  · exact .throw trivial

variable (hM : ∀ phase id pos bound,
  Ensures True I (matcher phase id pos bound) (Outcome.Fair ctx id pos))
include hM

/-- Taking up an element again. -/
theorem resumeAfter_fair {failed : ClauseId} {failedClause : Clause} {next : Option ClauseId}
    {pos skip : Nat} (hpos : pos < ctx.input.size)
    (hfailed : ctx.grammar.clause? failed = some failedClause) :
    Ensures True I
      (resumeAfter ctx (matcher .discovery · · none) failed failedClause
        (next.bind ctx.grammar.clause?) pos skip)
      fun r => ∀ repair, r = some repair → repair.Fair ctx failed next pos := by
  unfold resumeAfter
  split
  · exact .pure nofun
  rename_i hnext
  refine .bind (hM _ _ _ _) fun outcome houtcome => ?_
  split
  · rename_i node
    split
    · exact .pure nofun
    rename_i hself
    refine .pure ?_
    rintro _ ⟨⟩
    refine ⟨hpos, houtcome.throughout node rfl, fun text htext hstarts => ?_⟩
    obtain rfl : failedClause = .literal text := Option.some.inj (hfailed.symm.trans htext)
    exact passable_of_not_leaps hstarts (Bool.eq_false_iff.2 hnext) (Bool.eq_false_iff.2 hself)
  · exact .pure nofun

/-- Repairing a sequence. -/
theorem repairSequence_fair {failed : ClauseId} {rest : List ClauseId} {pos : Nat} :
    Ensures True I (repairSequence ctx (matcher .discovery · · none) failed rest pos)
      fun r => ∀ repair, r = some repair → repair.Fair ctx failed rest.head? pos := by
  have hnext : Ensures True I (rest.head?.mapM ctx.clause)
      fun next => next = rest.head?.bind ctx.grammar.clause? := by
    cases rest with
    | nil => exact .pure rfl
    | cons next others =>
      refine .bind (clause_partial next) fun clause hclause => .pure ?_
      exact hclause.symm
  unfold repairSequence
  split
  · refine .pure ?_
    rintro _ ⟨⟩
    trivial
  · rename_i hbefore
    refine .bind (clause_partial failed) fun failedClause hfailed => ?_
    refine .bind hnext fun next hnext => ?_
    subst hnext
    exact .findSomeM? fun skip _ => resumeAfter_fair hM (Nat.lt_of_not_le hbefore) hfailed

/-- **The elements of a sequence.** An element that was passed over to failed before, and what a repair
passes over is what it may. -/
theorem evaluateElements_fair (hI : Stable ctx I) : ∀ {elements : List ClauseId} {pos : Nat},
    Ensures True I (evaluateElements ctx matcher phase id bound elements pos)
      fun r => ∀ nodes, r = some nodes →
        SkipsFairly ctx elements nodes ∧ ∀ node ∈ nodes, node.Throughout (Node.Fair ctx)
  | [], pos => by
    refine .pure ?_
    rintro _ ⟨⟩
    exact ⟨.of_forall (List.forall_mem_nil _), List.forall_mem_nil _⟩
  | element :: rest, pos => by
    have herror : ∀ {node : Node}, (∀ info children, node ≠ .clause info children) →
        node.Throughout (Node.Fair ctx) := by
      intro node hnode other hother
      cases node with
      | clause info children => exact absurd rfl (hnode info children)
      | skipped _ _ | deleted _ _ =>
        rw [Node.nodes, List.mem_singleton] at hother
        subst hother
        trivial
    rw [evaluateElements]
    refine .bind (hM _ _ _ _) fun outcome houtcome => ?_
    split
    · rename_i node
      obtain ⟨hnode, hfair⟩ := houtcome.throughout node rfl
      refine .bind (evaluateElements_fair hI) fun others hothers => .pure ?_
      intro nodes hnodes
      obtain ⟨tail, rfl, rfl⟩ := Option.map_eq_some_iff.1 hnodes
      obtain ⟨hskips, htail⟩ := hothers tail rfl
      exact ⟨hskips.cons hnode, List.forall_mem_cons.2 ⟨hfair, htail⟩⟩
    · rename_i hnot
      have hfailed : outcome.isMatch = false := by
        cases outcome with
        | matched node => exact absurd rfl (hnot node)
        | mismatch | pending => rfl
      split
      · exact .pure (by simp)
      refine .bind (repairSequence_fair hM) fun repair hrepair => ?_
      split
      · exact .pure (by simp)
      · refine .bind (recordRepair_partial hI) fun _ _ => .bind (hI.note _).of_total fun _ _ => .pure ?_
        rintro _ ⟨⟩
        refine ⟨.of_forall ?_, ?_⟩
        · intro child hchild
          obtain ⟨_, -, rfl⟩ := List.mem_map.1 hchild
          rfl
        · intro child hchild
          obtain ⟨_, -, rfl⟩ := List.mem_map.1 hchild
          exact herror (by simp)
      · rename_i skip node
        obtain ⟨hpos, ⟨hnode, hfair⟩, hpassable⟩ := hrepair _ rfl
        refine .bind (recordRepair_partial hI) fun _ _ => .bind (hI.note _).of_total fun _ _ =>
          .bind (evaluateElements_fair hI) fun others hothers => .pure ?_
        intro nodes hnodes
        obtain ⟨tail, rfl, rfl⟩ := Option.map_eq_some_iff.1 hnodes
        obtain ⟨hskips, htail⟩ := hothers tail rfl
        refine ⟨hskips.resumed hnode fun text htext => ?_, ?_⟩
        · exact hpassable text htext (houtcome.failed hfailed hpos text htext)
        · exact List.forall_mem_cons.2 ⟨herror (by simp), List.forall_mem_cons.2 ⟨hfair, htail⟩⟩

/-- **Evaluating a clause** gives fair trees if the matcher does. -/
theorem evaluate_fair (hI : Stable ctx I) {clause : Clause} {pos : Nat}
    (hid : ctx.grammar.clause? id = some clause) :
    Ensures True I (evaluate ctx matcher phase id clause pos bound)
      (Outcome.Throughout (Node.Fair ctx)) := by
  by_cases hkind : ∃ elements, clause = .seq elements
  · obtain ⟨elements, rfl⟩ := hkind
    have hself : ∀ {nodes : List Node} {info : NodeInfo}, info.clause = id →
        SkipsFairly ctx elements nodes → (Node.clause info nodes).Fair ctx := by
      rintro nodes info rfl hskips others hothers
      cases hid.symm.trans hothers
      exact hskips
    refine .bind (evaluateElements_fair hM hI) fun result hresult => ?_
    split
    · exact .pure (Outcome.throughout_of_not_isMatch rfl)
    · refine .pure (Outcome.throughout_matched (Node.throughout_leaf ?_))
      exact hself rfl (.of_forall nofun)
    · rename_i nodes _
      obtain ⟨hskips, hnodes⟩ := hresult nodes rfl
      exact .pure (Outcome.throughout_matched (Node.throughout_wrap (hself rfl hskips) hnodes))
  · refine evaluate_throughout (fun _ _ _ _ => (hM _ _ _ _).mono fun _ h => h.throughout) hI
      (fun _ _ => trivial) ?_ fun elements heq => hkind ⟨elements, heq⟩
    rintro info children rfl elements hseq
    exact absurd ⟨elements, Option.some.inj (hid.symm.trans hseq)⟩ hkind

end sequences

/-! ## The chart -/

/-- **The invariant of a session**: stored trees are fair, and literals are stored as they stand. -/
structure Session.Fair (ctx : Context) (s : Session) : Prop extends Session.Spells ctx s where
  /-- Stored trees are fair. -/
  stored : ∀ {id pos outcome}, (s.cellAt id pos).result = some outcome →
    outcome.Throughout (Node.Fair ctx)

/-- What a lookup of a literal gives is fair. -/
theorem textOutcome_fair {ctx : Context} {id : ClauseId} {pos : Nat} {text : List Char}
    (hid : ctx.grammar.clause? id = some (.literal text)) :
    (textOutcome ctx text id pos).Fair ctx id pos := by
  unfold textOutcome
  split
  · rename_i hstarts
    refine ⟨Outcome.throughout_matched (Node.throughout_leaf ?_), nofun⟩
    intro elements hseq
    cases hid.symm.trans hseq
  · rename_i hstarts
    refine ⟨Outcome.throughout_of_not_isMatch rfl, fun _ _ other hother => ?_⟩
    cases hid.symm.trans hother
    exact Bool.eq_false_iff.2 hstarts

namespace Session.Fair

variable {ctx : Context} {s t : Session} {id : ClauseId} {pos : Nat}

/-- Only the shape and the cells of a chart matter. -/
theorem of_cells (h : s.Fair ctx) (hwidth : t.width = s.width)
    (hcell : ∀ id pos, t.cellAt id pos = s.cellAt id pos) : t.Fair ctx where
  toSpells := h.toSpells.of_cells hwidth hcell
  stored := by
    intro other place outcome hresult
    rw [hcell] at hresult
    exact h.stored hresult

/-- Storing a fair tree, or a literal as it stands. -/
theorem withCell (h : s.Fair ctx) (hpos : pos ≤ ctx.input.size) {cell : Cell}
    (hcell : ∀ outcome, cell.result = some outcome → outcome.Throughout (Node.Fair ctx))
    (htext : ∀ text, ctx.grammar.clause? id = some (.literal text) →
      cell.HoldsText ctx text id pos) :
    (s.withCell id pos cell).Fair ctx where
  toSpells := h.toSpells.withCell hpos htext
  stored := by
    intro other place outcome hresult
    rw [cellAt_withCell (h.toSpells.lt_width hpos)] at hresult
    split at hresult
    · exact hcell outcome hresult
    · exact h.stored hresult

/-- What an evaluation does beside matching does not matter. -/
theorem stable (ctx : Context) : Stable ctx (Session.Fair ctx) where
  width h := h.width
  noted _ h := h.of_cells rfl fun _ _ => rfl
  tallied _ h := h.of_cells rfl fun _ _ => rfl
  bumped hpos h := h.of_cells width_bumped fun _ _ => cellAt_bumped (h.toSpells.lt_width hpos)

/-- Literals are held to the input. -/
theorem literate (ctx : Context) : Literate ctx (Session.Fair ctx) where
  stable := stable ctx
  texts h := h.texts
  withCell := by
    intro s id pos text cell h hid hpos hcell
    refine h.withCell hpos (fun outcome houtcome => ?_) fun other hother => ?_
    · rw [hcell.stored outcome houtcome]
      exact (textOutcome_fair hid).throughout
    · cases hid.symm.trans hother
      exact hcell
  of_agrees h hagrees := h.of_cells hagrees.width hagrees.cell

/-- The cells of other clauses are held to fair trees. -/
theorem holds (hpos : pos ≤ ctx.input.size)
    (hid : ∀ text, ctx.grammar.clause? id ≠ some (.literal text)) :
    Holds ctx (Session.Fair ctx) (Outcome.Throughout (Node.Fair ctx)) id pos where
  stable := stable ctx
  stored h := h.stored
  withCell h hcell := h.withCell hpos hcell fun text htext => absurd htext (hid text)
  of_not_isMatch := Outcome.throughout_of_not_isMatch
  markGrown := by
    intro outcome houtcome
    cases outcome with
    | mismatch | pending => exact Outcome.throughout_of_not_isMatch rfl
    | matched node =>
      obtain ⟨hskip, hfair⟩ := houtcome node rfl
      cases node with
      | skipped _ _ => cases hskip
      | deleted _ _ => exact houtcome
      | clause info children =>
        refine Outcome.throughout_matched fun other hother => ?_
        rw [Node.nodes] at hother
        rcases List.mem_cons.1 hother with rfl | hother
        · exact hfair (.clause info children) (Node.self_mem_nodes _)
        · exact hfair other (List.mem_cons_of_mem _ hother)

/-- Before anything was tried the chart is empty. -/
theorem start (ctx : Context) {work : Option Work} :
    (Session.start ctx.input.size work).Fair ctx where
  toSpells := .start ctx
  stored := by
    intro other place outcome hresult
    rw [cellAt_start] at hresult
    cases hresult

end Session.Fair

/-- **Any clause.** The induction is on the depth. -/
theorem matchClause_fair (ctx : Context) : ∀ (depth : Nat) (phase : Phase) (id : ClauseId) (pos : Nat)
    (bound : Option ClauseId),
    Ensures True (Session.Fair ctx) (matchClause ctx depth phase id pos bound) (Outcome.Fair ctx id pos)
  | 0, _, _, _, _ => .throw trivial
  | depth + 1, phase, id, pos, bound => by
    rw [matchClause_succ]
    refine matchWith_ensures (fun hbeyond => ?_) fun {clause} hid hpos => ?_
    · refine ⟨Outcome.throughout_of_not_isMatch rfl, fun _ hlt => ?_⟩
      exact absurd hlt (Nat.lt_asymm hbeyond)
    by_cases htext : ∃ text, clause = .literal text
    · obtain ⟨text, rfl⟩ := htext
      have hmatch := (Session.Fair.literate ctx).matchClause hid hpos (depth + 1) phase bound
      rw [matchClause_succ, matchWith_of_clause hpos hid] at hmatch
      refine hmatch.of_total.mono ?_
      rintro _ rfl
      exact textOutcome_fair hid
    · have hnot : ∀ text, ctx.grammar.clause? id ≠ some (.literal text) := fun text heq =>
        htext ⟨text, Option.some.inj (hid.symm.trans heq)⟩
      have heval : Ensures True (Session.Fair ctx)
          (evaluate ctx (matchClause ctx depth) phase id clause pos bound)
          (Outcome.Throughout (Node.Fair ctx)) :=
        evaluate_fair (matchClause_fair ctx depth) (Session.Fair.stable ctx) hid
      have hfair : ∀ outcome : Outcome, outcome.Throughout (Node.Fair ctx) →
          outcome.Fair ctx id pos := fun outcome houtcome =>
        ⟨houtcome, fun _ _ text heq => absurd heq (hnot text)⟩
      split
      · exact heval.mono hfair
      · exact (matchThrough_holds (Session.Fair.holds hpos hnot) hpos heval).mono hfair

/-! ## Parses -/

/-- The phases of a parse. -/
theorem Job.matchPhases_fair (job : Job) :
    Ensures True (Session.Fair job.context) job.matchPhases
      fun result => result.1.Throughout (Node.Fair job.context) := by
  have hmatch : ∀ phase, Ensures True (Session.Fair job.context) (job.matchTop phase)
      (Outcome.Throughout (Node.Fair job.context)) := fun phase =>
    (matchClause_fair job.context _ phase job.top 0 none).mono fun _ h => h.throughout
  have hnote : ∀ event, Ensures True (Session.Fair job.context) (Session.note event)
      fun _ => True := fun event => ((Session.Fair.stable job.context).note event).of_total
  unfold matchPhases
  refine .bind (hnote _) fun _ _ => .bind (hmatch _) fun outcome houtcome => ?_
  split
  · exact .pure houtcome
  · split
    · exact .pure houtcome
    · exact .bind (hnote _) fun _ _ => .bind (hmatch _) fun repaired hrepaired => .pure hrepaired

/-- **A sequence takes its literals up where they are due.** The result of a parse from a rule of a built
grammar exists, over every input and under every configuration. In every match of a sequence in its tree,
input is passed over before an element, whose match is the next child. If that element is a literal, then
it is not in what was passed over; a literal of several characters passes over no more than it has; and a
literal of one character that passes over two or more does not pass over the literal that comes next in
the sequence. -/
theorem parse_skips_fairly {definitions : List Definition} {g : Grammar}
    (hb : Grammar.build definitions = .ok g) {rule : String} {top : ClauseId}
    (hr : g.rule? rule = some top) (input : String) (config : Config) :
    ∃ p, parse g rule input config = .ok p ∧
      ∀ info children elements, Node.clause info children ∈ p.root.nodes →
        g.clause? info.clause = some (.seq elements) →
        (∀ before pos len after, children = before ++ .skipped pos len :: after →
          ∃ element node rest, elements[elementCount before]? = some element ∧ after = node :: rest ∧
            node.IsMatch element (pos + len)) ∧
        SkipsFairly ⟨g, input.toList.toArray⟩ elements children := by
  have hg := build_wellFormed hb
  let job := g.job rule top input config
  have hphases := Job.matchPhases_ensures (show job.grammar.WellFormed from hg) (hg.rule?_lt hr)
  obtain ⟨⟨outcome, hasErrors⟩, session, hrun, -, hsound, -⟩ := hphases.run job.start_sound
  obtain ⟨events, hexecute⟩ := Job.execute_of_run hrun
  obtain ⟨-, houtcome⟩ := job.matchPhases_fair.of_ok (Session.Fair.start job.context) hrun
  refine ⟨_, parse_eq_ok (Job.make_eq_ok hr) hexecute, ?_⟩
  intro info children elements hmem hseq
  cases outcome with
  | matched node =>
    obtain ⟨-, -, clause, hclause, hforms⟩ := (hsound node rfl).formed _ hmem
    cases hclause.symm.trans hseq
    cases hforms with
    | seq helements =>
      exact ⟨fun _ _ _ _ => helements.after_skip, (houtcome node rfl).2 _ hmem elements hseq⟩
  | mismatch | pending =>
    have hroot : Node.clause info children ∈ [Node.skipped 0 job.input.size] := hmem
    cases List.mem_singleton.1 hroot

/-- A pair in brackets: a name of two characters and one of one. -/
def namedPairDefinitions : List Definition :=
  [⟨"S", .seq [.lit "(", .lit "ab", .lit ",", .lit "x", .lit ")"]⟩]

/-- The grammar of the pair. -/
def namedPairGrammar : Grammar where
  clauses := #[.literal ['('], .literal ['a', 'b'], .literal [','], .literal ['x'], .literal [')'],
    .seq [0, 1, 2, 3, 4]]
  rules := [⟨"S", false, 5⟩]

/-- A pair with two characters too many before the longer name and before the comma. -/
theorem parse_skips_fairly_pair :
    Grammar.build namedPairDefinitions = .ok namedPairGrammar ∧
      ∃ p, parse namedPairGrammar "S" "(??ab..,x)" {} = .ok p ∧
        p.root = .wrap 5 [.terminal 0 0 1, .skipped 1 2, .terminal 1 3 2, .skipped 5 2, .terminal 2 7 1,
          .terminal 3 8 1, .terminal 4 9 1] true ∧
        Passable namedPairGrammar ['a', 'b'] (some 2) ['?', '?'] ∧
        Passable namedPairGrammar [','] (some 3) ['.', '.'] := by
  have hb : Grammar.build namedPairDefinitions = .ok namedPairGrammar := rfl
  have hr : namedPairGrammar.rule? "S" = some 5 := rfl
  obtain ⟨p, hp, hfair⟩ := parse_skips_fairly hb hr "(??ab..,x)" {}
  have hroot : (parse namedPairGrammar "S" "(??ab..,x)" {}).toOption.map Parse.root =
      some (.wrap 5 [.terminal 0 0 1, .skipped 1 2, .terminal 1 3 2, .skipped 5 2, .terminal 2 7 1,
        .terminal 3 8 1, .terminal 4 9 1] true) := by decide +kernel
  rw [hp] at hroot
  replace hroot : p.root = _ := Option.some.inj hroot
  have hmem := Node.self_mem_nodes p.root
  rw [hroot] at hmem hfair
  obtain ⟨-, hskips⟩ := hfair _ _ [0, 1, 2, 3, 4] hmem rfl
  exact ⟨hb, p, hp, hroot, hskips [.terminal 0 0 1] 1 2 _ _ rfl 1 _ rfl rfl,
    hskips [.terminal 0 0 1, .skipped 1 2, .terminal 1 3 2] 5 2 _ _ rfl 2 _ rfl rfl⟩

end Packrat
