import Packrat.Proofs.Probes

/-!
# What a parse reports of its errors

A result shows its errors as a flag, as a list and as a number. The list and the number are taken
from the tree of the phase that came last, the flag from the first phase.

* `Job.First.errors_eq_zero` — the first phase makes no errors.
* **`parse_accounts_errors`** — the number is the length of the list, every node of the tree records
  the number of errors below it, and the list is in order and within the input.
* `Parse.Flawless` — the root covers the input and holds no errors.
* **`parse_flags_errors`** — the list is empty if the tree is flawless; the flag is off if that of
  plain matching is.
* `parse_flags_no_errors` — so the flag can be on with an empty list: the second phase finds a
  flawless tree that the first did not.
-/

namespace Packrat

/-! ## The first phase -/

/-- The outcome of the first phase holds no errors: it starts with an empty chart. -/
theorem Job.First.errors_eq_zero {job : Job} {first : Outcome} (h : job.First first) :
    first.errors = 0 := by
  obtain ⟨t, ht⟩ := h
  have hstart : job.opening.Harmless job.context Everywhere fun _ _ => False :=
    (Session.Harmless.start job.context Everywhere).of_chart_eq rfl
  have hmatch : Ensures True (Session.Harmless job.context Everywhere fun _ _ => False)
      (job.matchTop job.firstPhase) fun outcome => outcome.errors = 0 :=
    matchClause_errors (fun _ _ _ => trivial) trivial
  exact (hmatch.of_ok hstart ht).2

/-! ## Accounting -/

/-- Whether a result accounts for its errors: the recorded numbers, the list and its number agree, and
the list is in order. -/
structure Parse.Accounts (p : Parse) (inputLen : Nat) : Prop where
  /-- Every node records the number of errors below it. -/
  recorded : ∀ node ∈ p.root.nodes, node.errors = node.nodes.countP Node.isError
  /-- The number is that of the list. -/
  counted : p.errorCount = p.syntaxErrors.length
  /-- Every error ends before the next one starts. -/
  ordered : InOrder p.syntaxErrors
  /-- No error goes beyond the input. -/
  within : ∀ error ∈ p.syntaxErrors, error.stop ≤ inputLen
  /-- Without the flag there are no errors in the tree. -/
  unflagged : p.hasErrors = false → ∀ node ∈ p.root.nodes, node.isError = false

namespace Parse

variable {p : Parse} {inputLen : Nat}

/-- A result with the flag lists the errors of the leaves and of the rest, which stand one after the
other over the input. -/
theorem accounts_of_flagged (hflag : p.hasErrors = true) (hcovers : p.Covers inputLen)
    (hrest : p.trailing.filterMap Node.error? = p.unmatched.toList)
    (hrecorded : ∀ node ∈ p.root.nodes, node.errors = node.nodes.countP Node.isError) :
    p.Accounts inputLen := by
  have hlist : p.syntaxErrors = p.root.syntaxErrors ++ p.unmatched.toList := by
    rw [syntaxErrors, if_pos hflag]
  have hleaves : p.syntaxErrors = (p.root.leaves ++ p.trailing).filterMap Node.error? := by
    rw [List.filterMap_append, ← Node.syntaxErrors_eq_leaves, hrest, hlist]
  refine ⟨hrecorded, ?_, ?_, ?_, ?_⟩
  · rw [hlist, List.length_append, Node.length_syntaxErrors,
      ← hrecorded p.root (Node.self_mem_nodes _), errorCount]
    cases p.unmatched <;> rfl
  · rw [hleaves]
    exact hcovers.leaves_tile.errors_ordered
  · intro error herror
    rw [hleaves] at herror
    exact (hcovers.leaves_tile.errors_within error herror).2
  · intro hunflagged
    rw [hflag] at hunflagged
    cases hunflagged

/-- A result without the flag lists nothing, and there is nothing to list. -/
theorem accounts_of_unflagged (hflag : p.hasErrors = false) (hrest : p.unmatched = none)
    (hroot : p.root.errors = 0)
    (hrecorded : ∀ node ∈ p.root.nodes, node.errors = node.nodes.countP Node.isError) :
    p.Accounts inputLen := by
  have hlist : p.syntaxErrors = [] := by
    rw [syntaxErrors, hflag]
    rfl
  refine ⟨hrecorded, ?_, ?_, ?_, ?_⟩
  · rw [hlist, errorCount, hroot, hrest]
    rfl
  · rw [hlist]
    exact .nil
  · rw [hlist]
    exact nofun
  · intro _ node hnode
    rw [hrecorded p.root (Node.self_mem_nodes _), List.countP_eq_zero] at hroot
    exact Bool.eq_false_iff.2 (hroot node hnode)

end Parse

namespace Job

variable {job : Job} {outcome : Outcome} {hasErrors : Bool} {work : Option Work}

/-- The rest of the input is one error. -/
theorem assemble_trailing :
    (job.assemble outcome hasErrors work).trailing.filterMap Node.error? =
      (job.assemble outcome hasErrors work).unmatched.toList := by
  cases outcome with
  | matched node =>
    show (List.map _ (job.rest? node hasErrors).toList).filterMap Node.error? =
      (job.rest? node hasErrors).toList
    unfold rest?
    split <;> rfl
  | mismatch | pending => rfl

/-- Without the flag there is no rest. -/
theorem assemble_unmatched : (job.assemble outcome false work).unmatched = none := by
  cases outcome with
  | matched node =>
    show job.rest? node false = none
    simp [rest?]
  | mismatch | pending => rfl

/-- Every node of the tree of a sound outcome records the number of errors below it. -/
theorem assemble_recorded (hsound : outcome.Sound job.context job.top 0) :
    ∀ node ∈ (job.assemble outcome hasErrors work).root.nodes,
      node.errors = node.nodes.countP Node.isError := by
  cases outcome with
  | matched node => exact (hsound node rfl).errors_eq
  | mismatch | pending =>
    intro node hnode
    have hroot : node ∈ (Node.skipped 0 job.input.size).nodes := hnode
    rw [Node.nodes, List.mem_singleton] at hroot
    subst hroot
    rfl

/-- The root of an outcome that covers the input records the errors of the outcome. -/
theorem errors_root (hcovers : job.covers outcome = true) :
    (job.assemble outcome hasErrors work).root.errors = outcome.errors := by
  cases outcome with
  | matched node => rfl
  | mismatch | pending => cases hcovers

/-- **The result that a sound outcome stands for accounts for its errors**, unless it has some
without the flag. -/
theorem assemble_accounts (hsound : outcome.Sound job.context job.top 0)
    (hunflagged : hasErrors = false → job.covers outcome = true ∧ outcome.errors = 0) :
    (job.assemble outcome hasErrors work).Accounts job.input.size := by
  cases hasErrors with
  | true =>
    exact Parse.accounts_of_flagged rfl (assemble_covers hsound nofun) assemble_trailing
      (assemble_recorded hsound)
  | false =>
    obtain ⟨hcovers, herrors⟩ := hunflagged rfl
    refine Parse.accounts_of_unflagged rfl assemble_unmatched ?_ (assemble_recorded hsound)
    rw [errors_root hcovers, herrors]

end Job

/-! ## Flawless trees -/

/-- Whether the tree of a result covers the input and holds no errors. -/
def Parse.Flawless (p : Parse) (inputLen : Nat) : Prop :=
  p.root.stop = inputLen ∧ ∀ node ∈ p.root.nodes, node.isError = false

/-- The list of a result that accounts for its errors is empty exactly if its tree is flawless. -/
theorem Parse.syntaxErrors_eq_nil_iff {p : Parse} {inputLen : Nat} (haccounts : p.Accounts inputLen)
    (hcovers : p.Covers inputLen) (hle : p.root.stop ≤ inputLen) :
    p.syntaxErrors = [] ↔ p.Flawless inputLen := by
  have hroot : p.root.errors = 0 ↔ ∀ node ∈ p.root.nodes, node.isError = false := by
    rw [haccounts.recorded p.root (Node.self_mem_nodes _), List.countP_eq_zero]
    simp only [Bool.not_eq_true]
  have hrest := hcovers.trailing_iff
  rw [← List.length_eq_zero_iff, ← haccounts.counted, errorCount, Flawless, ← hroot]
  split
  · rename_i hsome
    have hlt := hrest.1 hsome
    omega
  · rename_i hnone
    have hlt : ¬p.root.stop < inputLen := fun h => hnone (hrest.2 h)
    omega

namespace Job

variable {job : Job} {outcome : Outcome} {hasErrors : Bool} {work : Option Work}

/-- The root of a result lies within the input. -/
theorem assemble_stop_le (hsound : outcome.Sound job.context job.top 0) :
    (job.assemble outcome hasErrors work).root.stop ≤ job.input.size := by
  cases outcome with
  | matched node => exact (hsound node rfl).stop_le
  | mismatch | pending => exact Nat.le_of_eq (Nat.zero_add _)

/-- The result that an outcome without errors stands for is flawless exactly if the outcome covers
the input. -/
theorem assemble_flawless_iff (hsound : outcome.Sound job.context job.top 0)
    (herrors : outcome.errors = 0) :
    (job.assemble outcome hasErrors work).Flawless job.input.size ↔ job.covers outcome = true := by
  cases outcome with
  | matched node =>
    have hnode := hsound node rfl
    have hpos : node.pos = 0 := hnode.pos_eq
    have hclean := hnode.not_isError herrors
    have hcovers : job.covers (.matched node) = true ↔ node.stop = job.input.size := by
      simp [covers, Outcome.node?, Node.stop, hpos]
    rw [hcovers]
    exact ⟨And.left, fun hstop => ⟨hstop, hclean⟩⟩
  | mismatch | pending =>
    constructor
    · intro h
      cases h.2 _ (Node.self_mem_nodes _)
    · intro h
      cases h

end Job

/-! ## Parses -/

/-- **What a parse reports**, from a rule of a well-formed grammar: the result accounts for its
errors, its list is empty exactly if its tree is flawless, and its flag is off exactly if the first
phase covers the input, which without repairs is to say that the tree is flawless. -/
theorem parse_reports {g : Grammar} (hg : g.WellFormed) {rule : String} {top : ClauseId}
    (hr : g.rule? rule = some top) (input : String) (config : Config) :
    ∃ p first, parse g rule input config = .ok p ∧ (g.job rule top input config).First first ∧
      p.Accounts input.length ∧ (p.syntaxErrors = [] ↔ p.Flawless input.length) ∧
      p.hasErrors = !(g.job rule top input config).covers first ∧
      (config.recovery = false →
        (p.Flawless input.length ↔ (g.job rule top input config).covers first = true)) := by
  let job := g.job rule top input config
  obtain ⟨first, outcome, work, hfirst, hsound, hlast, hparse⟩ := parse_phases hg hr input config
  have haccounts : (job.assemble outcome (!job.covers first) work).Accounts job.input.size := by
    refine Job.assemble_accounts hsound fun hflag => ?_
    rw [Bool.not_eq_false'] at hflag
    rw [hlast (.inl hflag)]
    exact ⟨hflag, hfirst.errors_eq_zero⟩
  have hcovers : (job.assemble outcome (!job.covers first) work).Covers job.input.size := by
    refine Job.assemble_covers hsound fun hflag => ?_
    rw [Bool.not_eq_false'] at hflag
    rw [hlast (.inl hflag), hflag]
  rw [← size_toArray_toList input]
  refine ⟨_, first, hparse, hfirst, haccounts,
    Parse.syntaxErrors_eq_nil_iff haccounts hcovers (Job.assemble_stop_le hsound), rfl, ?_⟩
  intro hrecovery
  obtain rfl := hlast (.inr hrecovery)
  exact Job.assemble_flawless_iff hsound hfirst.errors_eq_zero

/-- **Every parse accounts for its errors.** From every rule of a built grammar, over every input and
under every configuration, the result exists; every node of its tree records the number of errors
below it, the number of errors is that of the list, the list is in order and within the input, and
without the flag the tree has no errors. -/
theorem parse_accounts_errors {definitions : List Definition} {g : Grammar}
    (hb : Grammar.build definitions = .ok g) {rule : String}
    (hr : (g.rule? rule).isSome = true) (input : String) (config : Config) :
    ∃ p, parse g rule input config = .ok p ∧ p.Accounts input.length := by
  obtain ⟨top, htop⟩ := Option.isSome_iff_exists.1 hr
  obtain ⟨p, first, hparse, -, haccounts, -⟩ :=
    parse_reports (build_wellFormed hb) htop input config
  exact ⟨p, hparse, haccounts⟩

/-- A sum with two errors: a character that fits nowhere, and the rest. -/
theorem parse_accounts_errors_sum :
    Grammar.build sumDefinitions = .ok sumGrammar ∧ (sumGrammar.rule? "Sum").isSome = true ∧
      ∃ p, parse sumGrammar "Sum" "1+?2 " {} = .ok p ∧ p.Accounts 5 := by
  have hb : Grammar.build sumDefinitions = .ok sumGrammar := rfl
  exact ⟨hb, rfl, parse_accounts_errors hb rfl "1+?2 " {}⟩

/-- A result is refused with nothing to describe exactly if it has the flag and an empty list. -/
theorem Parse.strict_eq_error_nil_iff (p : Parse) :
    p.strict = .error (.syntaxErrors []) ↔ p.hasErrors = true ∧ p.syntaxErrors = [] := by
  unfold strict
  constructor
  · intro h
    split at h
    · rename_i hflag
      have hnil : p.descriptions = [] := by
        injection h with h
        injection h
      exact ⟨hflag, List.map_eq_nil_iff.1 hnil⟩
    · cases h
  · rintro ⟨hflag, hnil⟩
    rw [if_pos hflag, descriptions, hnil]
    rfl

/-- **What the flag and the list tell.** A parse and the one without repairs over the same input both
have a result. The flag is on exactly if the tree of the latter is not flawless; the list is empty
exactly if the tree of the former is. So the two agree unless repairs come to a flawless tree that
plain matching did not find, and exactly then is a result refused with no errors to describe. -/
theorem parse_flags_errors {definitions : List Definition} {g : Grammar}
    (hb : Grammar.build definitions = .ok g) {rule : String}
    (hr : (g.rule? rule).isSome = true) (input : String) (config : Config) :
    ∃ p plain, parse g rule input config = .ok p ∧
      parse g rule input { config with recovery := false } = .ok plain ∧
      (p.hasErrors = true ↔ ¬plain.Flawless input.length) ∧
      (p.syntaxErrors = [] ↔ p.Flawless input.length) ∧
      (p.strict = .error (.syntaxErrors []) ↔
        ¬plain.Flawless input.length ∧ p.Flawless input.length) := by
  obtain ⟨top, htop⟩ := Option.isSome_iff_exists.1 hr
  have hg := build_wellFormed hb
  obtain ⟨p, first, hparse, hfirst, -, hlist, hflag, -⟩ := parse_reports hg htop input config
  obtain ⟨plain, first', hparse', hfirst', -, -, -, hplain⟩ :=
    parse_reports hg htop input { config with recovery := false }
  -- The first phase does not depend on the configuration.
  obtain rfl : first = first' := hfirst.unique hfirst'
  have hflag' : p.hasErrors = true ↔ ¬plain.Flawless input.length := by
    rw [hflag, hplain rfl, Bool.not_eq_true', Bool.not_eq_true]
    rfl
  refine ⟨p, plain, hparse, hparse', hflag', hlist, ?_⟩
  rw [p.strict_eq_error_nil_iff, hflag', hlist]

/-- An error that is in the list and flagged. -/
theorem parse_flags_errors_sum :
    Grammar.build sumDefinitions = .ok sumGrammar ∧ (sumGrammar.rule? "Sum").isSome = true ∧
      ∃ p plain, parse sumGrammar "Sum" "1+?2 " {} = .ok p ∧
        parse sumGrammar "Sum" "1+?2 " ⟨false, false⟩ = .ok plain ∧
        (p.hasErrors = true ↔ ¬plain.Flawless 5) ∧ (p.syntaxErrors = [] ↔ p.Flawless 5) := by
  have hb : Grammar.build sumDefinitions = .ok sumGrammar := rfl
  have hr : (sumGrammar.rule? "Sum").isSome = true := rfl
  obtain ⟨p, plain, hparse, hparse', hflag, hlist, -⟩ := parse_flags_errors hb hr "1+?2 " {}
  exact ⟨hb, hr, p, plain, hparse, hparse', hflag, hlist⟩

/-- Marks in a row, or two around another. -/
def markDefinitions : List Definition :=
  [⟨"S", .choice [.plus (.lit "a"), .lit "aba"]⟩]

/-- The grammar of marks. -/
def markGrammar : Grammar where
  clauses := #[.literal ['a'], .repeated 0 true, .literal ['a', 'b', 'a'], .choice [1, 2]]
  rules := [⟨"S", false, 3⟩]

/-- **A flag without errors.** Plain matching takes one mark in a row and falls short. With repairs
the row costs an error, so the other alternative is taken, which covers the input as it is. -/
theorem parse_flags_no_errors :
    Grammar.build markDefinitions = .ok markGrammar ∧
      ∃ p, parse markGrammar "S" "aba" {} = .ok p ∧
        p.root = .wrapOne 3 (.terminal 2 0 3) true ∧ p.hasErrors = true ∧ p.syntaxErrors = [] ∧
        p.strict = .error (.syntaxErrors []) := by
  let p : Parse :=
    { grammar := markGrammar, topRule := "S", input := "aba".toList.toArray,
      root := .wrapOne 3 (.terminal 2 0 3) true, unmatched := none, hasErrors := true, work := none }
  have hparse : parse markGrammar "S" "aba" {} = .ok p := by decide +kernel
  exact ⟨rfl, p, hparse, rfl, rfl, rfl, rfl⟩

end Packrat
