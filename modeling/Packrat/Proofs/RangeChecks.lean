import Packrat.Proofs.Layout
import Packrat.Proofs.Texts
import Packrat.Proofs.TidyCharts

/-!
# Nothing is read out of range

The engine reads lists and the input by pattern matching and by lookups that may fail, and subtracts as
if nothing below zero were there. Here is the same engine with indices: a sequence is walked by the index
of its next element, stretches of the input and of lists are cut out by their ends, and every index, every
stretch and every subtraction is checked first. A check that fails breaks the run off with `outOfRange`,
just as a missing clause or column does in either engine. No check ever fails.

* `minus`, `itemAt`, `stretch`, `windows` — the checked operations.
* `sequenceFrom`, `recoverSequence`, `recoverRepetition`, `iterateChecked`, `chooseChecked`, `wrapChecked`
  — the parts of the engine that need them, and `sequenceFrom_eq` and its kin: with clauses that exist
  they are the parts without checks.
* `shown` — the lookups that showing a clause takes, for reports.
* `matchChecked`, `Job.executeChecked` — the engine and a whole run.
* **`checks_never_fail`** — a run with checks gives what the run without them gives.

Most checks pass by what the engine has just compared. That the end of the last part of a match is not
before the start of the first is a fact about match trees, so matching is followed through sound sessions
(`matchChecked_tracks`). That clauses can be shown is a fact about the layout of a built grammar.
-/

namespace Packrat

/-! ## Checked operations -/

/-- Subtraction of a number that must not be the larger one. -/
def minus (a b : Nat) : MatchM Nat := if b ≤ a then return a - b else throw .outOfRange

/-- The item with an index that must exist. -/
def itemAt {α : Type} (items : List α) (i : Nat) : MatchM α :=
  match items[i]? with
  | some item => return item
  | none => throw .outOfRange

/-- The items between two ends that must be in order and inside. -/
def stretch {α : Type} (items : List α) (start stop : Nat) : MatchM (List α) :=
  if start ≤ stop ∧ stop ≤ items.length then return (items.drop start).take (stop - start)
  else throw .outOfRange

/-- All stretches of a length that must not be zero. -/
def windows {α : Type} (items : List α) (size : Nat) : MatchM (List (List α)) :=
  if size = 0 then throw .outOfRange
  else return (List.range (items.length + 1 - size)).map fun k => (items.drop k).take size

section operations

variable {α : Type} {items : List α} {a b i start stop : Nat}

theorem minus_eq (h : b ≤ a) : minus a b = pure (a - b) := if_pos h

theorem itemAt_eq {item : α} (h : items[i]? = some item) : itemAt items i = pure item := by
  rw [itemAt, h]

theorem stretch_eq (hle : start ≤ stop) (hlength : stop ≤ items.length) :
    stretch items start stop = pure ((items.drop start).take (stop - start)) := if_pos ⟨hle, hlength⟩

/-- The rest of a list as a stretch. -/
theorem stretch_rest (h : start ≤ items.length) :
    stretch items start items.length = pure (items.drop start) := by
  rw [stretch_eq h (Nat.le_refl _), List.take_of_length_le (by rw [List.length_drop])]

end operations

/-! ## Repairs of sequences -/

/-- Whether a text stands somewhere in a stretch, which is cut up only if the text is not empty. -/
def occursIn (haystack needle : List Char) : MatchM Bool :=
  if needle.isEmpty then return true
  else return (← windows haystack needle.length).any (· == needle)

/-- Whether a one-character literal would pass over the literal that follows it, in what is skipped. -/
def leapsNextChecked (failed : Clause) (next : Option Clause) (skip : Nat) (skipped : List Char) :
    MatchM Bool :=
  match failed, next with
  | .literal [_], some (.literal text) => if 1 < skip then occursIn skipped text else return false
  | _, _ => return false

/-- Whether a literal would pass over too much to be taken up again. -/
def leapsSelfChecked (ctx : Context) (failed : Clause) (pos skip : Nat) : MatchM Bool := do
  match failed with
  | .literal text =>
    if skip ≤ text.length then return false
    if 1 < text.length then return true
    occursIn (← stretch ctx.input.toList pos (pos + skip)) text
  | _ => return false

/-- How a sequence goes on: so much input is passed over, so many elements are missing, and then it
resumes with a match or ends. -/
structure SequenceRecovery where
  /-- The input passed over. -/
  inputSkip : Nat
  /-- The missing elements, from the failed one on. -/
  grammarSkip : Nat
  /-- The match with which the sequence goes on. -/
  resumed : Option Node

/-- The repair of a sequence whose element with index `i` does not match at `pos`. -/
def recoverSequence (ctx : Context) (probe : ClauseId → Nat → MatchM Outcome) (children : List ClauseId)
    (i pos : Nat) : MatchM (Option SequenceRecovery) := do
  let failed ← itemAt children i
  let failedClause ← ctx.clause failed
  let next ← children[i + 1]?.mapM ctx.clause
  if ctx.input.size ≤ pos then return some ⟨0, ← minus children.length i, none⟩
  let room ← minus ctx.input.size pos
  (List.range' 1 (room - 1)).findSomeM? fun skip => do
    let skipped ← stretch ctx.input.toList pos (pos + skip)
    if ← leapsNextChecked failedClause next skip skipped then return none
    match ← probe failed (pos + skip) with
    | .matched node =>
      if ← leapsSelfChecked ctx (← ctx.clause failed) pos skip then return none
      return some ⟨skip, 0, some node⟩
    | _ => return none

section repairs

variable {ctx : Context} {probe : ClauseId → Nat → MatchM Outcome} {children : List ClauseId}
  {element : ClauseId} {i pos skip : Nat}

/-- A text stands at a position if the input goes on with it there. -/
theorem startsAt_eq_take (input : Array Char) : ∀ (text : List Char) (pos : Nat),
    startsAt input text pos = ((input.toList.drop pos).take text.length == text)
  | [], pos => by simp [startsAt]
  | c :: text, pos => by
    rw [startsAt, startsAt_eq_take input text (pos + 1), ← Array.getElem?_toList, List.length_cons]
    by_cases hlt : pos < input.toList.length
    · rw [List.drop_eq_getElem_cons hlt, List.take_succ_cons, List.getElem?_eq_getElem hlt]
      rfl
    · rw [List.getElem?_eq_none (Nat.le_of_not_lt hlt), List.drop_eq_nil_of_le (Nat.le_of_not_lt hlt)]
      rfl

/-- Looking for a text in a stretch that was cut out. -/
theorem occursIn_eq (hle : pos + skip ≤ ctx.input.size) (text : List Char) :
    occursIn ((ctx.input.toList.drop pos).take skip) text =
      pure (occursWithin ctx.input text pos (pos + skip)) := by
  unfold occursIn occursWithin
  by_cases hempty : text.isEmpty = true
  · rw [if_pos hempty, hempty, Bool.true_or]
  · have hlength : text.length ≠ 0 := by simpa [List.isEmpty_iff] using hempty
    have hcut : ((ctx.input.toList.drop pos).take skip).length = skip := by
      rw [List.length_take, List.length_drop, Array.length_toList]
      omega
    have hcount : pos + skip + 1 - text.length - pos = skip + 1 - text.length := by omega
    rw [if_neg hempty, windows, if_neg hlength, pure_bind, List.any_map, hcut, hcount,
      Bool.eq_false_iff.2 hempty, Bool.false_or]
    refine congrArg pure (Bool.eq_iff_iff.2 ?_)
    rw [List.any_eq_true, List.any_eq_true]
    refine exists_congr fun k => and_congr_right fun hk => ?_
    have hroom : text.length ≤ skip - k := by
      rw [List.mem_range] at hk
      omega
    rw [startsAt_eq_take, Function.comp_apply, List.drop_take, List.take_take, List.drop_drop,
      Nat.min_eq_left hroom]

/-- The check on the next literal. -/
theorem leapsNextChecked_eq (hle : pos + skip ≤ ctx.input.size) (failed : Clause)
    (next : Option Clause) :
    leapsNextChecked failed next skip ((ctx.input.toList.drop pos).take skip) =
      pure (leapsNext ctx.input failed next pos skip) := by
  unfold leapsNext
  split
  · by_cases hskip : 1 < skip <;> simp [leapsNextChecked, hskip, occursIn_eq hle]
  · rename_i hother
    unfold leapsNextChecked
    split
    · exact absurd rfl (hother _ _ rfl)
    · rfl

/-- A stretch of input that ends inside it. -/
theorem stretch_input (hle : pos + skip ≤ ctx.input.size) :
    stretch ctx.input.toList pos (pos + skip) = pure ((ctx.input.toList.drop pos).take skip) := by
  rw [stretch_eq (Nat.le_add_right pos skip) (by rwa [Array.length_toList]), Nat.add_sub_cancel_left]

/-- The check on the literal itself. -/
theorem leapsSelfChecked_eq (hle : pos + skip ≤ ctx.input.size) (failed : Clause) :
    leapsSelfChecked ctx failed pos skip = pure (leapsSelf ctx.input failed pos skip) := by
  unfold leapsSelf
  split
  · rename_i text
    unfold leapsSelfChecked
    by_cases hskip : skip ≤ text.length
    · simp [hskip, Nat.not_lt.2 hskip]
    · by_cases hlong : 1 < text.length
      · simp [hskip, hlong, Nat.not_le.1 hskip]
      · simp [hskip, hlong, Nat.not_le.1 hskip, stretch_input hle, occursIn_eq hle]
  · rename_i hother
    unfold leapsSelfChecked
    split
    · exact absurd rfl (hother _)
    · rfl

/-- Two searches that go through the same computations, and what comes after them. -/
theorem findSomeM?_bind_congr {α β γ γ' δ : Type} (found : β → MatchM (Option α)) (give : β → α → γ)
    (give' : β → α → γ') {f : β → MatchM (Option γ)} {f' : β → MatchM (Option γ')}
    {k : Option γ → MatchM δ} {k' : Option γ' → MatchM δ} (items : List β)
    (hf : ∀ b ∈ items, f b = Option.map (give b) <$> found b)
    (hf' : ∀ b ∈ items, f' b = Option.map (give' b) <$> found b) (hnone : k none = k' none)
    (hsome : ∀ b ∈ items, ∀ a, k (some (give b a)) = k' (some (give' b a))) :
    (items.findSomeM? f >>= k) = (items.findSomeM? f' >>= k') := by
  induction items with
  | nil => simpa only [List.findSomeM?, pure_bind] using hnone
  | cons b rest ih =>
    have hrest := ih (fun c hc => hf c (List.mem_cons_of_mem b hc))
      (fun c hc => hf' c (List.mem_cons_of_mem b hc)) fun c hc => hsome c (List.mem_cons_of_mem b hc)
    simp only [List.findSomeM?, hf b List.mem_cons_self, hf' b List.mem_cons_self, bind_assoc,
      bind_map_left]
    refine bind_congr fun result => ?_
    cases result with
    | none => exact hrest
    | some a =>
      simp only [Option.map_some, pure_bind]
      exact hsome b List.mem_cons_self a

/-- The match with which a sequence resumes after passing over input. -/
def resumedNode (ctx : Context) (probe : ClauseId → Nat → MatchM Outcome) (failed : ClauseId)
    (failedClause : Clause) (next : Option Clause) (pos skip : Nat) : MatchM (Option Node) := do
  if leapsNext ctx.input failedClause next pos skip then return none
  match ← probe failed (pos + skip) with
  | .matched node => return if leapsSelf ctx.input failedClause pos skip then none else some node
  | _ => return none

/-- The unchecked attempt to resume. -/
theorem resumeAfter_eq_map (failed : ClauseId) (failedClause : Clause) (next : Option Clause) :
    resumeAfter ctx probe failed failedClause next pos skip =
      Option.map (SequenceRepair.skip skip) <$>
        resumedNode ctx probe failed failedClause next pos skip := by
  unfold resumeAfter resumedNode
  by_cases hnext : leapsNext ctx.input failedClause next pos skip = true
  · simp only [hnext, if_true, map_pure, Option.map_none]
  · simp only [hnext, Bool.false_eq_true, if_false, map_bind]
    refine bind_congr fun outcome => ?_
    cases outcome with
    | matched node => by_cases hself : leapsSelf ctx.input failedClause pos skip = true <;> simp [hself]
    | mismatch | pending => simp

/-- **Repairing a sequence by index** is repairing it by its rest, for whatever comes after that makes
nothing of the difference. -/
theorem recoverSequence_bind {α : Type} (hchildren : ∀ child ∈ children, ctx.Has child)
    (helement : children[i]? = some element) {k : Option SequenceRepair → MatchM α}
    {k' : Option SequenceRecovery → MatchM α} (hnone : k' none = k none)
    (hdelete : k' (some ⟨0, children.length - i, none⟩) = k (some .deleteRest))
    (hskip : ∀ skip, 0 < skip → ∀ node, k' (some ⟨skip, 0, some node⟩) = k (some (.skip skip node))) :
    (recoverSequence ctx probe children i pos >>= k') =
      (repairSequence ctx probe element (children.drop (i + 1)) pos >>= k) := by
  have hlt : i < children.length := (List.getElem?_eq_some_iff.1 helement).1
  obtain ⟨clause, hclause⟩ := (hchildren element (List.mem_of_getElem? helement)).exists_clause
  obtain ⟨next, hnext⟩ : ∃ next, children[i + 1]?.mapM ctx.clause = (pure next : MatchM _) := by
    cases hafter : children[i + 1]? with
    | none => exact ⟨none, rfl⟩
    | some other =>
      obtain ⟨found, hfound⟩ := (hchildren other (List.mem_of_getElem? hafter)).exists_clause
      refine ⟨some found, ?_⟩
      rw [Option.mapM_some, Context.clause_eq_pure hfound, map_pure]
  unfold recoverSequence repairSequence
  rw [itemAt_eq helement, pure_bind, Context.clause_eq_pure hclause, pure_bind, List.head?_drop, hnext,
    pure_bind]
  by_cases hend : ctx.input.size ≤ pos
  · simp only [if_pos hend, minus_eq hlt.le, pure_bind]
    exact hdelete
  · rw [if_neg hend, if_neg hend, minus_eq (Nat.le_of_not_le hend), pure_bind, pure_bind, pure_bind]
    refine findSomeM?_bind_congr (resumedNode ctx probe element clause next pos)
      (fun skip node => (⟨skip, 0, some node⟩ : SequenceRecovery)) .skip _ ?_ ?_ hnone ?_
    · intro skip hmem
      have hle : pos + skip ≤ ctx.input.size := by
        have hin := List.mem_range'_1.1 hmem
        omega
      rw [stretch_input hle, pure_bind, leapsNextChecked_eq hle, pure_bind, resumedNode]
      by_cases hleaps : leapsNext ctx.input clause next pos skip = true
      · simp only [hleaps, if_true, map_pure, Option.map_none]
      · simp only [hleaps, Bool.false_eq_true, if_false, map_bind]
        refine bind_congr fun outcome => ?_
        cases outcome with
        | matched node =>
          by_cases hself : leapsSelf ctx.input clause pos skip = true <;>
            simp [leapsSelfChecked_eq hle, hself]
        | mismatch | pending => simp
    · intro skip _
      exact resumeAfter_eq_map element clause next
    · intro skip hmem node
      have hin := List.mem_range'_1.1 hmem
      exact hskip skip (by omega) node

end repairs

/-! ## Sequences -/

/-- The elements of a sequence from index `i` on. -/
def sequenceFrom (ctx : Context) (matcher : Matcher) (phase : Phase) (id : ClauseId)
    (bound : Option ClauseId) (children : List ClauseId) : Nat → Nat → Nat → MatchM (Option (List Node))
  | 0, _, _ => throw .exhausted
  | fuel + 1, i, pos => do
    if children.length ≤ i then return some []
    let element ← itemAt children i
    match ← matcher phase element pos (elementBound phase children[i + 1]?.toList bound) with
    | .matched node =>
      let others ← sequenceFrom ctx matcher phase id bound children fuel (i + 1) (pos + node.len)
      return others.map (node :: ·)
    | failed =>
      if phase = .discovery || failed.isGrown then return none
      match ← recoverSequence ctx (matcher .discovery · · none) children i pos with
      | none => return none
      | some ⟨inputSkip, grammarSkip, resumed⟩ =>
        recordRepair pos
        Session.note (.sequenceRepaired id pos inputSkip grammarSkip)
        let missing ← stretch children i (i + grammarSkip)
        let repaired := (if 0 < inputSkip then [Node.skipped pos inputSkip] else [])
          ++ missing.map (Node.deleted (pos + inputSkip))
        match resumed with
        | none => return some repaired
        | some node =>
          let others ← sequenceFrom ctx matcher phase id bound children fuel (i + grammarSkip + 1)
            (pos + inputSkip + node.len)
          return others.map fun nodes => repaired ++ node :: nodes

/-- The bound of an element, by the index of the next one. -/
theorem elementBound_toList (phase : Phase) (children : List ClauseId) (i : Nat)
    (bound : Option ClauseId) :
    elementBound phase children[i]?.toList bound = elementBound phase (children.drop i) bound := by
  rw [← List.head?_drop]
  cases children.drop i with
  | nil => rfl
  | cons next rest => cases phase <;> rfl

/-- **Walking a sequence by index** is going through its elements. The induction is on the rounds; the
elements from the index on get fewer. -/
theorem sequenceFrom_eq {ctx : Context} {matcher : Matcher} {phase : Phase} {id : ClauseId}
    {bound : Option ClauseId} {children : List ClauseId} (hchildren : ∀ child ∈ children, ctx.Has child) :
    ∀ {fuel i pos : Nat}, children.length - i < fuel →
      sequenceFrom ctx matcher phase id bound children fuel i pos =
        evaluateElements ctx matcher phase id bound (children.drop i) pos
  | 0, i, pos, hfuel => by omega
  | fuel + 1, i, pos, hfuel => by
    rw [sequenceFrom]
    by_cases hend : children.length ≤ i
    · rw [if_pos hend, List.drop_eq_nil_of_le hend]
      rfl
    have hlt : i < children.length := Nat.lt_of_not_le hend
    have helement : children[i]? = some children[i] := List.getElem?_eq_getElem hlt
    rw [if_neg hend, itemAt_eq helement, pure_bind, List.drop_eq_getElem_cons hlt, evaluateElements,
      elementBound_toList]
    refine bind_congr fun outcome => ?_
    have hnext : ∀ {next}, sequenceFrom ctx matcher phase id bound children fuel (i + 1) next =
        evaluateElements ctx matcher phase id bound (children.drop (i + 1)) next :=
      sequenceFrom_eq hchildren (by omega)
    cases outcome with
    | matched node => simp only [hnext]
    | mismatch | pending =>
      simp only
      split
      · rfl
      refine recoverSequence_bind hchildren helement rfl ?_ fun skip hskip node => ?_
      · have hlength : (children.drop (i + 1)).length + 1 = children.length - i := by
          rw [List.length_drop]
          omega
        have hstop : i + (children.length - i) = children.length := by omega
        simp only [hlength, hstop, stretch_rest hlt.le, pure_bind, List.drop_eq_getElem_cons hlt,
          Nat.lt_irrefl, if_false, List.nil_append, Nat.add_zero]
      · have hnone : stretch children i i = pure [] := by
          rw [stretch_eq (Nat.le_refl i) hlt.le, Nat.sub_self, List.take_zero]
        simp only [hnone, pure_bind, if_pos hskip, List.map_nil, Nat.add_zero, hnext, List.cons_append,
          List.nil_append]

/-! ## Choices and repetitions -/

/-- The node that a choice takes. -/
def chooseChecked (matcher : Matcher) (phase : Phase) (pos : Nat) (bound : Option ClauseId)
    (alternatives : List ClauseId) : MatchM (Option Node) :=
  match alternatives with
  | [] => return none
  | alternative :: rest => do
    match ← matcher phase alternative pos bound with
    | .matched node =>
      if phase = .recovery && 0 < node.errors then
        let others ← stretch alternatives 1 alternatives.length
        return some (← bestAlternative matcher phase pos bound others node)
      else return some node
    | _ => firstAlternative matcher phase pos bound rest

/-- Choosing without the check. -/
theorem chooseChecked_eq (matcher : Matcher) (phase : Phase) (pos : Nat) (bound : Option ClauseId)
    (alternatives : List ClauseId) :
    chooseChecked matcher phase pos bound alternatives =
      chooseAlternative matcher phase pos bound alternatives := by
  cases alternatives with
  | nil => rfl
  | cons alternative rest =>
    have hrest : stretch (alternative :: rest) 1 (alternative :: rest).length = pure rest :=
      stretch_rest (Nat.succ_le_succ (Nat.zero_le rest.length))
    simp only [chooseChecked, hrest, pure_bind]
    rfl

/-- The repair of a repetition whose item does not match at `pos`. -/
def recoverRepetition (ctx : Context) (probe : ClauseId → Nat → MatchM Outcome) (item : ClauseId)
    (pos : Nat) (repaired : Bool) : MatchM (Option RepetitionRepair) := do
  let found ← (List.range' 1 (ctx.input.size - pos)).findSomeM? fun skip => do
    return (← probe item (pos + skip)).node?.map fun node => (⟨skip, some node⟩ : RepetitionRepair)
  match found with
  | some repair => return some repair
  | none =>
    if repaired && pos < ctx.input.size then return some ⟨← minus ctx.input.size pos, none⟩
    else return none

/-- Repairing a repetition without the check. -/
theorem recoverRepetition_eq (ctx : Context) (probe : ClauseId → Nat → MatchM Outcome)
    (item : ClauseId) (pos : Nat) (repaired : Bool) :
    recoverRepetition ctx probe item pos repaired = repairRepetition ctx probe item pos repaired := by
  unfold recoverRepetition repairRepetition
  refine bind_congr fun found => ?_
  cases found with
  | some repair => rfl
  | none =>
    by_cases hrest : (repaired && decide (pos < ctx.input.size)) = true
    · have hlt : pos < ctx.input.size := by simpa using (Bool.and_eq_true_iff.1 hrest).2
      simp only [hrest, if_true, minus_eq hlt.le, pure_bind]
    · simp only [hrest, Bool.false_eq_true, if_false]

/-- The iterations of a repetition. -/
def iterateChecked (ctx : Context) (matcher : Matcher) (phase : Phase) (id item : ClauseId)
    (bound : Option ClauseId) : Nat → Nat → Bool → MatchM (List Node × Bool)
  | 0, _, _ => throw .exhausted
  | fuel + 1, pos, repaired => do
    if ctx.input.size < pos then return ([], false)
    if ← boundReached matcher phase bound pos then return ([], false)
    match ← matcher phase item pos none with
    | .matched node =>
      if node.len = 0 then return ([], false)
      let (nodes, short) ←
        iterateChecked ctx matcher phase id item bound fuel (pos + node.len) repaired
      return (node :: nodes, short)
    | _ =>
      if phase = .discovery then return ([], pos < ctx.input.size)
      match ← recoverRepetition ctx (matcher .discovery · · none) item pos repaired with
      | none => return ([], false)
      | some ⟨skip, resumed⟩ =>
        recordRepair pos
        Session.note (.repetitionRepaired id pos skip resumed.isSome)
        match resumed with
        | none => return ([.skipped pos skip], false)
        | some node =>
          let (nodes, short) ←
            iterateChecked ctx matcher phase id item bound fuel (pos + skip + node.len) true
          return (.skipped pos skip :: node :: nodes, short)

/-- Iterating without the checks. -/
theorem iterateChecked_eq (ctx : Context) (matcher : Matcher) (phase : Phase) (id item : ClauseId)
    (bound : Option ClauseId) : ∀ (fuel pos : Nat) (repaired : Bool),
      iterateChecked ctx matcher phase id item bound fuel pos repaired =
        iterate ctx matcher phase id item bound fuel pos repaired
  | 0, _, _ => rfl
  | fuel + 1, pos, repaired => by
    simp only [iterateChecked, recoverRepetition_eq,
      iterateChecked_eq ctx matcher phase id item bound fuel]
    rfl

/-! ## Any clause -/

/-- A match made of other nodes. -/
def wrapChecked (id : ClauseId) (children : List Node) (complete : Bool) : MatchM Node := do
  let (start, len) ←
    match children.head?, children.getLast? with
    | some first, some last => pure (first.pos, ← minus last.stop first.pos)
    | _, _ => pure (0, 0)
  return .clause
    ⟨id, start, len, complete, children.any Node.isGrown, Node.totalErrors children⟩ children

/-- Nodes that stand one after the other are wrapped without a check. -/
theorem wrapChecked_eq (id : ClauseId) {nodes : List Node} (complete : Bool) {start stop : Nat}
    (htiles : Tiles start nodes stop) (hne : nodes ≠ []) :
    wrapChecked id nodes complete = pure (.wrap id nodes complete) := by
  cases nodes with
  | nil => exact absurd rfl hne
  | cons first rest =>
    obtain ⟨last, hlast⟩ : ∃ last, (first :: rest).getLast? = some last :=
      ⟨_, List.getLast?_eq_getLast_of_ne_nil hne⟩
    have hstop := htiles.getLast_stop hne
    have hle := htiles.le
    rw [hlast] at hstop
    have hcheck : first.pos ≤ last.stop := by
      rw [htiles.1, show last.stop = stop from hstop]
      exact hle
    simp only [wrapChecked, List.head?_cons, hlast, minus_eq hcheck, pure_bind, Node.wrap,
      Option.map_some, Option.getD_some]

/-- One node is wrapped without a check. -/
theorem wrapChecked_single (id : ClauseId) (node : Node) (complete : Bool) :
    wrapChecked id [node] complete = pure (.wrapOne id node complete) :=
  wrapChecked_eq id complete (.single rfl) (List.cons_ne_nil node [])

/-- The parts of a sound match stand one after the other. -/
theorem wrapChecked_of_sound {ctx : Context} {id : ClauseId} {pos : Nat} {nodes : List Node}
    {complete : Bool} (hne : nodes ≠ [])
    (hsound : (Outcome.matched (.wrap id nodes complete)).Sound ctx id pos) :
    wrapChecked id nodes complete = pure (.wrap id nodes complete) := by
  obtain ⟨-, -, clause, -, hforms⟩ := (hsound _ rfl).formed _ (Node.self_mem_nodes _)
  exact wrapChecked_eq id complete (hforms.tiles hne) hne

/-- **Evaluating a clause with checks.** Terminals and lookaheads have none to make. -/
def evaluateChecked (ctx : Context) (matcher : Matcher) (phase : Phase) (id : ClauseId)
    (clause : Clause) (pos : Nat) (bound : Option ClauseId) : MatchM Outcome := do
  match clause with
  | .seq elements =>
    match ← sequenceFrom ctx matcher phase id bound elements (elements.length + 1) 0 pos with
    | none => return .mismatch
    | some [] => return .matched (.emptyAt id pos true)
    | some nodes => return .matched (← wrapChecked id nodes (nodes.all Node.isComplete))
  | .choice alternatives =>
    match ← chooseChecked matcher phase pos bound alternatives with
    | some node => return .matched (← wrapChecked id [node] node.isComplete)
    | none => return .mismatch
  | .repeated item atLeastOne =>
    let (nodes, short) ← iterateChecked ctx matcher phase id item bound (ctx.input.size + 2) pos false
    match nodes with
    | [] => return if atLeastOne then .mismatch else .matched (.emptyAt id pos !short)
    | nodes => return .matched (← wrapChecked id nodes (!short && nodes.all Node.isComplete))
  | .optional item =>
    match ← matcher phase item pos bound with
    | .matched node => return .matched (← wrapChecked id [node] node.isComplete)
    | _ => return .matched (.emptyAt id pos !(phase = .discovery && pos < ctx.input.size))
  | .reference _ target =>
    match ← matcher phase target pos bound with
    | .matched node => return .matched (← wrapChecked id [node] node.isComplete)
    | failed => return failed
  | clause => evaluate ctx matcher phase id clause pos bound

/-- **Evaluating a clause needs no checks**, if it gives a sound outcome. -/
theorem evaluateChecked_run {ctx : Context} {matcher : Matcher} {phase : Phase} {id : ClauseId}
    {clause : Clause} {pos : Nat} {bound : Option ClauseId} {s t : Session} {outcome : Outcome}
    (hchildren : ∀ child ∈ clause.children, ctx.Has child)
    (hsound : clause.isReference = false → outcome.Sound ctx id pos)
    (h : (evaluate ctx matcher phase id clause pos bound).run s = .ok (outcome, t)) :
    (evaluateChecked ctx matcher phase id clause pos bound).run s = .ok (outcome, t) := by
  cases clause with
  | seq elements =>
    obtain ⟨result, u, hrun, hpure⟩ := Session.run_bind_eq_ok.1 h
    have hall : ∀ child ∈ elements, ctx.Has child := hchildren
    have helements : sequenceFrom ctx matcher phase id bound elements (elements.length + 1) 0 pos =
        evaluateElements ctx matcher phase id bound elements pos := sequenceFrom_eq hall (by omega)
    rw [evaluateChecked, helements, Session.run_bind_of_ok hrun]
    rcases result with _ | ⟨_ | ⟨node, rest⟩⟩
    · exact hpure
    · exact hpure
    · cases hpure
      simp only [wrapChecked_of_sound (List.cons_ne_nil node rest) (hsound rfl), pure_bind]
      rfl
  | choice alternatives =>
    obtain ⟨result, u, hrun, hpure⟩ := Session.run_bind_eq_ok.1 h
    rw [evaluateChecked, chooseChecked_eq, Session.run_bind_of_ok hrun]
    cases result with
    | none => exact hpure
    | some node =>
      simp only [wrapChecked_single, pure_bind]
      exact hpure
  | repeated item atLeastOne =>
    obtain ⟨⟨nodes, short⟩, u, hrun, hpure⟩ := Session.run_bind_eq_ok.1 h
    rw [evaluateChecked, iterateChecked_eq, Session.run_bind_of_ok hrun]
    cases nodes with
    | nil => exact hpure
    | cons node rest =>
      cases hpure
      simp only [wrapChecked_of_sound (List.cons_ne_nil node rest) (hsound rfl), pure_bind]
      rfl
  | optional item | reference name item =>
    obtain ⟨result, u, hrun, hpure⟩ := Session.run_bind_eq_ok.1 h
    rw [evaluateChecked, Session.run_bind_of_ok hrun]
    cases result with
    | matched node =>
      simp only [wrapChecked_single, pure_bind]
      exact hpure
    | mismatch | pending => exact hpure
  | _ => exact h

/-! ## Clauses in notation -/

/-- A report shows a clause in notation, for which the clauses that it is made of must exist. -/
def shown (ctx : Context) (id : ClauseId) : MatchM Unit :=
  if (ctx.grammar.exprAt? id).isSome then return () else throw .outOfRange

/-- Computing with each item gives values if each computation does. -/
theorem exists_mapM_eq_some {α β : Type} {f : α → Option β} : ∀ {items : List α},
    (∀ a ∈ items, ∃ b, f a = some b) → ∃ values, items.mapM f = some values
  | [], _ => ⟨[], rfl⟩
  | a :: items, h => by
    obtain ⟨⟨b, hb⟩, hitems⟩ := List.forall_mem_cons.1 h
    obtain ⟨values, hvalues⟩ := exists_mapM_eq_some hitems
    exact ⟨b :: values, by rw [List.mapM_cons, hb, hvalues]; rfl⟩

/-- Clauses that come after their parts can be read back. The induction is on the depth: parts have
smaller indices. -/
theorem exists_exprAtFuel? {g : Grammar}
    (hearlier : ∀ {id clause}, g.clause? id = some clause → ∀ part ∈ clause.parts, part < id) :
    ∀ {fuel id : Nat}, id < g.clauses.size → id < fuel → ∃ e, g.exprAtFuel? fuel id = some e
  | 0, id, _, hfuel => absurd hfuel (Nat.not_lt_zero id)
  | fuel + 1, id, hid, hfuel => by
    obtain ⟨clause, hclause⟩ : ∃ clause, g.clause? id = some clause := ⟨_, Array.getElem?_eq_getElem hid⟩
    have hpart : ∀ part ∈ clause.parts, ∃ e, g.exprAtFuel? fuel part = some e := by
      intro part hpart
      have hlt : part < id := hearlier hclause part hpart
      exact exists_exprAtFuel? hearlier (hlt.trans hid) (hlt.trans_le (Nat.le_of_lt_succ hfuel))
    cases clause with
    | literal _ | char _ | charClass _ _ | anyChar | empty | reference _ _ =>
      simp [Grammar.exprAtFuel?, hclause]
    | seq items | choice items =>
      obtain ⟨values, hvalues⟩ : ∃ values, items.mapM (g.exprAtFuel? fuel) = some values :=
        exists_mapM_eq_some hpart
      simp [Grammar.exprAtFuel?, hclause, hvalues]
    | repeated item _ | optional item | ahead item | notAhead item =>
      obtain ⟨e, he⟩ := hpart item (List.mem_singleton_self item)
      simp [Grammar.exprAtFuel?, hclause, he]

/-- The clauses of a built grammar can be shown. -/
theorem shown_eq {definitions : List Definition} {ctx : Context}
    (hb : Grammar.build definitions = .ok ctx.grammar) {id : ClauseId} (hid : ctx.Has id) :
    shown ctx id = pure () := by
  obtain ⟨lowered, hlower, hresolve, -⟩ := build_eq_ok hb
  have hnests : Nests 0 ctx.grammar.clauses.toList (ctx.grammar.rules.map (·.body)) :=
    Grammar.Lays.nests ⟨lowered, hlower, hresolve⟩
  have hearlier : ∀ {id clause}, ctx.grammar.clause? id = some clause →
      ∀ part ∈ clause.parts, part < id := by
    intro id clause hclause part hpart
    rw [Grammar.clause?, ← Array.getElem?_toList] at hclause
    exact (hnests.earlier hclause part hpart).trans_eq (Nat.zero_add id)
  obtain ⟨e, he⟩ := exists_exprAtFuel? hearlier hid (Nat.lt_succ_self id)
  rw [shown, Grammar.exprAt?, he]
  rfl

/-! ## Runs -/

/-- **Matching a clause with checks.** Each evaluation may be reported, so its clause must be one that
can be shown. -/
def matchChecked (ctx : Context) : Nat → Matcher :=
  matchBy ctx
    (fun matcher phase id clause pos bound => do
      shown ctx id
      evaluateChecked ctx matcher phase id clause pos bound)
    fun _ _ step => step

/-- **Matching needs no checks** in a tidy session, if the clauses can be shown. -/
theorem matchChecked_tracks {ctx : Context} (hg : ctx.grammar.WellFormed)
    (hshown : ∀ {id}, ctx.Has id → shown ctx id = pure ()) (depth : Nat) :
    (matchClause ctx depth).Tracks ctx (fun _ => Session.Tidy ctx) (matchChecked ctx depth) := by
  have htidy := tidy_invariant ctx
  refine matchBy_tracks htidy hg (fun _ => Around.unnoticed_nothing _) ?_ depth
  intro depth other hother phase id clause pos bound hclause hbound hpos s t outcome hs h
  obtain ⟨hrun, ht⟩ := evaluate_tracks htidy hg hother hclause hbound s t outcome hs h
  rw [hshown (Array.getElem?_eq_some_iff.1 hclause).1, pure_bind]
  refine ⟨evaluateChecked_run (hg.children_lt hclause) (fun hkind => ?_) hrun, ht⟩
  exact evaluate_sound hg hclause hkind hbound hpos hs.sound h

namespace Job

/-- The rest of the input after a match that falls short. -/
def restChecked (job : Job) (root : Node) (hasErrors : Bool) : MatchM (Option SyntaxError) := do
  if root.stop < job.input.size && hasErrors then
    return some ⟨root.stop, ← minus job.input.size root.stop, none⟩
  else return none

/-- The rest of the input without the check. -/
theorem restChecked_eq (job : Job) (root : Node) (hasErrors : Bool) :
    job.restChecked root hasErrors = pure (job.rest? root hasErrors) := by
  unfold restChecked rest?
  by_cases hrest : (decide (root.stop < job.input.size) && hasErrors) = true
  · have hlt : root.stop < job.input.size := by simpa using (Bool.and_eq_true_iff.1 hrest).1
    simp only [hrest, if_true, minus_eq hlt.le, pure_bind]
  · simp only [hrest, Bool.false_eq_true, if_false]

/-- The result of a parse with checks. -/
def parseChecked (job : Job) : MatchM Parse := do
  let (outcome, hasErrors) ← job.matchPhases fun phase =>
    matchChecked job.context job.context.depth phase job.top 0 none
  let unmatched ←
    match outcome with
    | .matched node => job.restChecked node hasErrors
    | _ => pure none
  return { job.assemble outcome hasErrors (← get).work with unmatched }

/-- **The result of a parse and its events**, with checks. -/
def executeChecked (job : Job) : Except Fault (Parse × List Event) := do
  let (result, session) ← job.parseChecked.run job.start
  return result.finish session

end Job

/-- **Nothing is read out of range.** A run over a built grammar with every index, every stretch and every
subtraction checked never breaks off, and gives the result and the events of the run without checks. -/
theorem checks_never_fail {definitions : List Definition} {g : Grammar}
    (hb : Grammar.build definitions = .ok g) {rule input : String} {config : Config} {job : Job}
    (hj : Job.make g rule input config = .ok job) :
    ∃ p events, job.executeChecked = .ok (p, events) ∧ job.execute = .ok (p, events) ∧
      parse g rule input config = .ok p := by
  obtain ⟨rfl, hr, -, -⟩ := Job.make_inv hj
  have hg := build_wellFormed hb
  obtain ⟨⟨outcome, hasErrors⟩, session, hplain, -⟩ :=
    (Job.matchPhases_ensures hg (hg.rule?_lt hr)).run (Job.start_sound job)
  have hphases := Job.run_matchPhases hg (tidy_invariant job.context)
    (fun _ => matchChecked_tracks hg (shown_eq hb) _ _ _ _ _ nofun) hplain
  have hparse : job.parseChecked.run job.start =
      .ok (job.assemble outcome hasErrors session.work, session) := by
    rw [Job.parseChecked, Session.run_bind_of_ok hphases]
    cases outcome with
    | matched node =>
      simp only [Job.restChecked_eq, pure_bind]
      rfl
    | mismatch | pending => rfl
  obtain ⟨events, hexecute⟩ := Job.execute_of_run hplain
  refine ⟨_, events, ?_, hexecute, parse_eq_ok hj hexecute⟩
  rw [← hexecute, Job.executeChecked, hparse, Job.execute, hplain]
  rfl

/-- A sum with input that fits nowhere: no check fails, in spite of the repairs. -/
theorem checks_never_fail_sum :
    Grammar.build sumDefinitions = .ok sumGrammar ∧
      ∃ job, Job.make sumGrammar "Sum" "1+2+x?3" {} = .ok job ∧
        ∃ p events, job.executeChecked = .ok (p, events) ∧ job.execute = .ok (p, events) ∧
          parse sumGrammar "Sum" "1+2+x?3" {} = .ok p ∧ p.errorCount = 2 := by
  have hb : Grammar.build sumDefinitions = .ok sumGrammar := rfl
  let job : Job := sumGrammar.job "Sum" 7 "1+2+x?3" {}
  have hj : Job.make sumGrammar "Sum" "1+2+x?3" {} = .ok job := Job.make_eq_ok rfl
  obtain ⟨p, events, hchecked, hplain, hparse⟩ := checks_never_fail hb hj
  have hcount : (parse sumGrammar "Sum" "1+2+x?3" {}).toOption.map Parse.errorCount = some 2 := by
    decide +kernel
  rw [hparse] at hcount
  exact ⟨hb, job, hj, p, events, hchecked, hplain, hparse, Option.some.inj hcount⟩

end Packrat
