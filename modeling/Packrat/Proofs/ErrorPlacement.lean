import Packrat.Proofs.Tiling

/-!
# Where errors stand

An element of the grammar is only taken as present where there is nothing left to see, and input is
only passed over where there is some.

* `SyntaxError.Placed` — a missing element stands at the end of the input and covers nothing; input
  that is passed over is not empty.
* `Node.Matches.placed` — so it is for all errors of a match tree. The invariant of matching says so
  of every node that is given or stored, in whatever context it is taken up again.
* **`parse_places_errors`** — so it is for all errors of a result, but for the one over an empty input
  of which nothing matches.
-/

namespace Packrat

/-- **Whether an error may stand where it does** in an input of that length. -/
def SyntaxError.Placed (inputLen : Nat) (error : SyntaxError) : Prop :=
  match error.missing with
  | some _ => error.len = 0 ∧ error.pos = inputLen
  | none => 0 < error.len

/-- The errors of a result: the nodes of its tree that are errors, and the rest of the input. -/
def Parse.errorNodes (p : Parse) : List SyntaxError :=
  (p.root.nodes ++ p.trailing).filterMap Node.error?

/-- A well-shaped node that is an error is placed. -/
theorem Node.Formed.placed {ctx : Context} {node : Node} {error : SyntaxError}
    (h : node.Formed ctx) (herror : node.error? = some error) : error.Placed ctx.input.size := by
  cases node with
  | clause info children => cases herror
  | skipped pos len =>
    cases herror
    exact h.1
  | deleted pos id =>
    cases herror
    exact ⟨rfl, h⟩

/-- The errors of a match tree are placed. -/
theorem Node.Matches.placed {ctx : Context} {id : ClauseId} {pos : Nat} {node : Node}
    (h : node.Matches ctx id pos) :
    ∀ error ∈ node.nodes.filterMap Node.error?, error.Placed ctx.input.size := by
  intro error herror
  obtain ⟨other, hother, hsome⟩ := List.mem_filterMap.1 herror
  exact (h.formed other hother).placed hsome

/-- A rest of the input is not empty. -/
theorem Job.rest?_len_pos {job : Job} {root : Node} {hasErrors : Bool} :
    ∀ error ∈ job.rest? root hasErrors, 0 < error.len := by
  intro error herror
  unfold Job.rest? at herror
  split at herror
  · rename_i hshort
    cases herror
    rw [Bool.and_eq_true, decide_eq_true_eq] at hshort
    show 0 < job.input.size - root.stop
    omega
  · cases herror

/-- The errors of the result that a match stands for are placed. -/
theorem Job.assemble_placed {job : Job} {node : Node} {hasErrors : Bool} {work : Option Work}
    (h : node.Matches job.context job.top 0) :
    ∀ error ∈ (job.assemble (.matched node) hasErrors work).errorNodes,
      error.Placed job.input.size := by
  intro error herror
  rw [Parse.errorNodes, List.filterMap_append] at herror
  rcases List.mem_append.1 herror with hroot | hrest
  · exact h.placed error hroot
  · obtain ⟨other, hother, hsome⟩ := List.mem_filterMap.1 hrest
    obtain ⟨rest, hmem, rfl⟩ := List.mem_map.1 hother
    cases hsome
    exact job.rest?_len_pos rest (Option.mem_toList.1 hmem)

/-- **Missing elements stand at the end of the input, and no empty input is passed over.** From every
rule of a built grammar, over every input and under every configuration, the result exists and its
errors are placed; or else the input is empty, nothing matches, and the one error is the root. -/
theorem parse_places_errors {definitions : List Definition} {g : Grammar}
    (hb : Grammar.build definitions = .ok g) {rule : String}
    (hr : (g.rule? rule).isSome = true) (input : String) (config : Config) :
    ∃ p, parse g rule input config = .ok p ∧
      ((∀ error ∈ p.errorNodes, error.Placed input.length) ∨
        (input = "" ∧ p.root = .skipped 0 0 ∧ p.errorNodes = [⟨0, 0, none⟩])) := by
  obtain ⟨top, htop⟩ := Option.isSome_iff_exists.1 hr
  obtain ⟨job, outcome, hasErrors, work, hctx, -, hparse, hsound, -⟩ :=
    parse_of_rule (build_wellFormed hb) htop input config
  have hinput : job.input = input.toList.toArray := congrArg Context.input hctx
  have hsize : job.input.size = input.length := by rw [hinput, size_toArray_toList]
  rw [← hsize]
  refine ⟨_, hparse, ?_⟩
  cases outcome with
  | matched node => exact .inl (job.assemble_placed (hsound node rfl))
  | mismatch | pending =>
    -- The one error of a total mismatch covers the whole input.
    rcases Nat.eq_zero_or_pos job.input.size with hzero | hpos
    · have hempty : input = "" := String.length_eq_zero_iff.1 (hsize ▸ hzero)
      refine .inr ⟨hempty, ?_, ?_⟩
      · show Node.skipped 0 job.input.size = _
        rw [hzero]
      · show [(⟨0, job.input.size, none⟩ : SyntaxError)] = _
        rw [hzero]
    · left
      intro error herror
      obtain rfl : error = ⟨0, job.input.size, none⟩ := List.mem_singleton.1 herror
      exact hpos

/-- Three letters in a row. -/
def rowDefinitions : List Definition := [⟨"S", .seq [.lit "a", .lit "b", .lit "c"]⟩]

/-- The grammar of three letters in a row. -/
def rowGrammar : Grammar where
  clauses := #[.literal ['a'], .literal ['b'], .literal ['c'], .seq [0, 1, 2]]
  rules := [⟨"S", false, 3⟩]

/-- A row with a letter that fits nowhere, and without its end. -/
theorem parse_places_errors_row :
    Grammar.build rowDefinitions = .ok rowGrammar ∧ (rowGrammar.rule? "S").isSome = true ∧
      ∃ p, parse rowGrammar "S" "axb" {} = .ok p ∧
        ((∀ error ∈ p.errorNodes, error.Placed 3) ∨
          ("axb" = "" ∧ p.root = .skipped 0 0 ∧ p.errorNodes = [⟨0, 0, none⟩])) := by
  have hb : Grammar.build rowDefinitions = .ok rowGrammar := rfl
  exact ⟨hb, rfl, parse_places_errors hb rfl "axb" {}⟩

/-- Both kinds of errors, and the one over an empty input of which nothing matches. -/
example :
    (parse rowGrammar "S" "axb" {}).toOption.map Parse.errorNodes =
        some [⟨1, 1, none⟩, ⟨3, 0, some 2⟩] ∧
      (parse sumGrammar "Num" "" {}).toOption.map Parse.errorNodes = some [⟨0, 0, none⟩] := by
  decide +kernel

end Packrat
