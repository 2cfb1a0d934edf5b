import Packrat.Proofs.Projection
import Packrat.Proofs.RoundTrip
import Packrat.Spec.Run

/-!
# Values are not built over errors

A caller may ask that no value is built from a syntax tree with errors. Only what the tree shows counts:
an error inside a match of a transparent rule is dropped with the rest of that match.

* `Fails` — a computation that gives an error whenever it gives anything, whatever its effects are.
* `Ast.construct_fails` — strict construction fails if there is an error anywhere in the tree.
* `Parse.ShowsError` — a result with a rest of the input, or with an error that stands below no
  reference to a transparent rule.
* **`construct_refuses_errors`** — strict construction from such a result fails with all factories.
* **`construct_accepts_hidden_error`** — it need not fail on an input with errors.
-/

namespace Packrat

/-! ## Failing computations -/

section failing

variable {m : Type → Type} {ε α β : Type}

/-- **Whether a computation never gives a value**: all it gives is errors. -/
def Fails [Monad m] (x : ExceptT ε m α) : Prop := ∃ failure : m ε, x.run = Except.error <$> failure

variable [Monad m] [LawfulMonad m]

/-- An error is given at once. -/
theorem Fails.error (e : ε) : Fails (ExceptT.mk (pure (.error e)) : ExceptT ε m α) :=
  ⟨pure e, (map_pure _ _).symm⟩

/-- A failing computation before another. -/
theorem Fails.bind {x : ExceptT ε m α} (h : Fails x) (f : α → ExceptT ε m β) : Fails (x >>= f) := by
  obtain ⟨failure, hrun⟩ := h
  refine ⟨failure, ?_⟩
  rw [ExceptT.run_bind, hrun, bind_map_left]
  exact bind_pure_comp _ _

/-- A failing computation after another. -/
theorem Fails.after {f : α → ExceptT ε m β} (h : ∀ a, Fails (f a)) (x : ExceptT ε m α) :
    Fails (x >>= f) := by
  choose failure hfailure using h
  refine ⟨x.run >>= fun result => match result with
    | .ok a => failure a
    | .error e => pure e, ?_⟩
  rw [ExceptT.run_bind, map_bind]
  refine bind_congr fun result => ?_
  cases result with
  | ok a => exact hfailure a
  | error e => exact (map_pure _ _).symm

/-- Errors under another name. -/
theorem Fails.adapt {δ : Type} {x : ExceptT ε m α} (h : Fails x) (f : ε → δ) : Fails (x.adapt f) := by
  obtain ⟨failure, hrun⟩ := h
  refine ⟨f <$> failure, ?_⟩
  show Except.mapError f <$> x.run = _
  rw [hrun, Functor.map_map, Functor.map_map]
  rfl

end failing

/-! ## Construction -/

namespace Ast

variable {m : Type → Type} {α : Type} [Monad m] [LawfulMonad m] {factories : Factories m α}

mutual

/-- **Strict construction fails** if a node of the syntax tree stands for an error. -/
theorem construct_fails : (ast : Ast) → ∀ depth, (∃ item ∈ ast.outline depth, item.2.isError = true) →
    Fails (construct factories false ast)
  | ⟨label, pos, len, error, children⟩, depth, herror => by
    rw [construct]
    cases error with
    | some e =>
      -- The node itself is refused before its factory is looked up.
      have hrefused : factories.factoryFor false label (some e) = .error (.syntaxError e.message) := rfl
      rw [hrefused]
      exact (Fails.error _).bind _
    | none =>
      refine .after (fun factory => .bind ?_ _) _
      refine constructAll_fails children (depth + 1) ?_
      obtain ⟨item, hitem, hisError⟩ := herror
      rw [outline] at hitem
      rcases List.mem_cons.1 hitem with rfl | hitem
      · cases hisError
      · exact ⟨item, hitem, hisError⟩

/-- The same for several syntax trees. -/
theorem constructAll_fails : (asts : List Ast) → ∀ depth,
    (∃ item ∈ outlineOf depth asts, item.2.isError = true) →
    Fails (constructAll factories false asts)
  | [], _, herror => by
    obtain ⟨item, hitem, -⟩ := herror
    exact absurd hitem List.not_mem_nil
  | ast :: rest, depth, herror => by
    obtain ⟨item, hitem, hisError⟩ := herror
    rw [constructAll]
    rw [outlineOf] at hitem
    rcases List.mem_append.1 hitem with hitem | hitem
    · exact (construct_fails ast depth ⟨item, hitem, hisError⟩).bind _
    · exact .after (fun _ => (constructAll_fails rest depth ⟨item, hitem, hisError⟩).bind _) _

end

end Ast

/-! ## Results -/

/-- **Whether a result shows an error**: there is a rest of the input, or an error of the tree stands below
no reference to a transparent rule. -/
def Parse.ShowsError (p : Parse) : Prop :=
  p.unmatched.isSome = true ∨ ∃ entry ∈ p.root.withAncestors [], entry.2.isError = true ∧
    ∀ above ∈ entry.1, above.isHidden p.grammar = false

/-- An error is shown as one. -/
theorem Depicts.isError {g : Grammar} {entry : List Node × Node} {item : Nat × Ast}
    (h : Depicts g entry item) (herror : entry.2.isError = true) : item.2.isError = true := by
  obtain ⟨above, node⟩ := entry
  obtain ⟨depth, ast⟩ := item
  cases node with
  | clause info children => cases herror
  | skipped pos len | deleted pos id =>
    cases h.2 with
    | terminal hterminal => cases hterminal
    | error => rfl
    | rule hvisible => cases hvisible

/-- A projection of a result that shows an error has a node for it. -/
theorem Parse.ProjectsTo.exists_isError {p : Parse} {inputLen : Nat} {ast : Ast}
    (h : p.ProjectsTo inputLen ast) (hshows : p.ShowsError) :
    ∃ item ∈ ast.outline 0, item.2.isError = true := by
  obtain ⟨entry, hentry, herror⟩ : ∃ entry ∈ p.root.kept p.grammar [] ++
      p.trailing.map (fun node => ([], node)), entry.2.isError = true := by
    rcases hshows with hrest | ⟨entry, hentry, herror, habove⟩
    · obtain ⟨rest, hrest⟩ := Option.isSome_iff_exists.1 hrest
      refine ⟨([], .skipped rest.pos rest.len), List.mem_append_right _ ?_, rfl⟩
      simp [Parse.trailing, hrest]
    · refine ⟨entry, List.mem_append_left _ (List.mem_filter.2 ⟨hentry, ?_⟩), herror⟩
      simpa [Node.isShown, herror] using habove
  obtain ⟨i, hi, hget⟩ := List.getElem_of_mem hentry
  have hi' : i < (Ast.outlineOf 1 ast.children).length := by rwa [← h.depicts.length_eq]
  have hdepicts := h.depicts.get hi hi'
  rw [Ast.outline_eq]
  refine ⟨_, List.mem_cons_of_mem _ (List.get_mem _ ⟨i, hi'⟩), hdepicts.isError ?_⟩
  rwa [List.get_eq_getElem, hget]

/-- What a call from texts to a value does once the texts are read and parsed. -/
theorem Spec.cstOf_eq {spec rule input : String} {g : Grammar} (hread : Spec.read spec = .ok g)
    {p : Parse} (hparse : parse g rule input {} = .ok p) {m : Type → Type} {α : Type} [Monad m]
    [LawfulMonad m] (factories : Factories m α) (allowErrors : Bool) :
    Spec.cstOf spec rule input factories allowErrors =
      ((Ast.ofParse p).construct factories allowErrors).adapt .cst := by
  have hast : Spec.astOf spec rule input = .ok (Ast.ofParse p) := by
    rw [Spec.astOf, Spec.parseInput, hread]
    show (do return Ast.ofParse (← (parse g rule input {}).mapError Failure.parse)) = _
    rw [hparse]
    rfl
  rw [Spec.cstOf, hast]
  show (pure (Ast.ofParse p) >>= fun ast => _ : ExceptT Failure m α) = _
  rw [pure_bind]

/-- **No value is built over an error that is shown.** Whatever the specification, the rule, the input and
the factories with their effects are: if the result of the parse shows an error, construction from its
syntax tree without leave for errors never gives a value, and neither does the call from the texts. -/
theorem construct_refuses_errors {spec rule input : String} {g : Grammar}
    (hread : Spec.read spec = .ok g) {config : Config} {p : Parse}
    (hparse : parse g rule input config = .ok p) (hshows : p.ShowsError) {m : Type → Type} {α : Type}
    [Monad m] [LawfulMonad m] (factories : Factories m α) :
    Fails ((Ast.ofParse p).construct factories false) ∧
      (config = {} → Fails (Spec.cstOf spec rule input factories false)) := by
  obtain ⟨-, -, definitions, -, -, -, hb⟩ := Spec.read_eq_ok_iff.1 hread
  have hprojects := projectsTo_of_parse (build_wellFormed hb) hparse
  have hfails : Fails ((Ast.ofParse p).construct factories false) :=
    Ast.construct_fails _ 0 (hprojects.exists_isError hshows)
  refine ⟨hfails, ?_⟩
  rintro rfl
  rw [Spec.cstOf_eq hread hparse]
  exact hfails.adapt _

/-- Two letters with a pair between them that leaves no trace. -/
def gapDefinitions : List Definition :=
  [⟨"S", .seq [.lit "a", .reference "W", .lit "b"]⟩, ⟨"~W", .seq [.lit "x", .lit "y"]⟩]

/-- The grammar of two letters with a pair between them. -/
def gapGrammar : Grammar where
  clauses := #[.literal ['a'], .reference "W" 6, .literal ['b'], .seq [0, 1, 2], .literal ['x'],
    .literal ['y'], .seq [4, 5]]
  rules := [⟨"S", false, 3⟩, ⟨"W", true, 6⟩]

/-- The text of that grammar. -/
def gapText : String := "S <- (\"a\" W \"b\") ;\n~W <- (\"x\" \"y\") ;\n"

/-- The text is read as the grammar. -/
theorem read_gapText : Spec.read gapText = .ok gapGrammar := by
  have hp : ∀ definition ∈ gapDefinitions, definition.Printable := by
    refine List.forall_mem_cons.2 ⟨⟨by decide, ?_⟩, List.forall_mem_singleton.2 ⟨by decide, ?_⟩⟩
    · simp [Expr.Each, Expr.EachItem, Expr.Writable, Expr.lit]
      decide
    · simp [Expr.Each, Expr.EachItem, Expr.Writable, Expr.lit]
      decide
  have hb : Grammar.build gapDefinitions = .ok gapGrammar := rfl
  have htext : gapText = String.ofList (gapDefinitions.flatMap Definition.render) := by decide +kernel
  rw [htext]
  exact Spec.read_definitions hb hp

/-- Factories that count nodes; there is none for errors. -/
def countNodes : Factories Id Nat where
  entries := [("S", fun _ counts => pure (counts.foldl (· + ·) 1)),
    (Ast.terminalLabel, fun _ _ => pure 1)]

/-- A character that fits nowhere after the pair is shown, and no value is built. -/
theorem construct_refuses_errors_gap :
    Spec.read gapText = .ok gapGrammar ∧ ∃ p, parse gapGrammar "S" "axy?b" {} = .ok p ∧
      p.ShowsError ∧ Fails ((Ast.ofParse p).construct countNodes false) ∧
      Fails (Spec.cstOf gapText "S" "axy?b" countNodes false) := by
  let pair : Node := .wrapOne 1 (.wrap 6 [.terminal 4 1 1, .terminal 5 2 1] true) true
  let p : Parse :=
    { grammar := gapGrammar, topRule := "S", input := "axy?b".toList.toArray,
      root := .wrap 3 [.terminal 0 0 1, pair, .skipped 3 1, .terminal 2 4 1] true, unmatched := none,
      hasErrors := true, work := none }
  have hparse : parse gapGrammar "S" "axy?b" {} = .ok p := by decide +kernel
  have hshows : p.ShowsError := by
    unfold Parse.ShowsError
    decide +kernel
  obtain ⟨hconstruct, hcall⟩ := construct_refuses_errors read_gapText hparse hshows countNodes
  exact ⟨read_gapText, p, hparse, hshows, hconstruct, hcall rfl⟩

/-- **A value can be built over errors.** A character that fits nowhere inside the pair is an error of the
input, but it is dropped with the pair, and strict construction counts the three nodes that are left. -/
theorem construct_accepts_hidden_error :
    Spec.read gapText = .ok gapGrammar ∧ ∃ p, parse gapGrammar "S" "ax?yb" {} = .ok p ∧
      p.hasErrors = true ∧ p.syntaxErrors = [⟨2, 1, none⟩] ∧
      ((Ast.ofParse p).construct countNodes false).run = Except.ok 3 ∧
      (Spec.cstOf gapText "S" "ax?yb" countNodes false).run = Except.ok 3 := by
  let pair : Node := .wrapOne 1 (.wrap 6 [.terminal 4 1 1, .skipped 2 1, .terminal 5 3 1] true) true
  let p : Parse :=
    { grammar := gapGrammar, topRule := "S", input := "ax?yb".toList.toArray,
      root := .wrap 3 [.terminal 0 0 1, pair, .terminal 2 4 1] true, unmatched := none,
      hasErrors := true, work := none }
  have hparse : parse gapGrammar "S" "ax?yb" {} = .ok p := by decide +kernel
  have herrors : p.syntaxErrors = [⟨2, 1, none⟩] := by decide +kernel
  have hvalue : Id.run ((Ast.ofParse p).construct countNodes false).run = .ok 3 := by decide +kernel
  refine ⟨read_gapText, p, hparse, rfl, herrors, hvalue, ?_⟩
  rw [Spec.cstOf_eq read_gapText hparse]
  exact congrArg (Except.mapError Failure.cst) hvalue

end Packrat
