import Packrat.Ast.Cst

/-!
# In what order values are built

Construction checks a node on the way down and calls its factory on the way up, and stops at the first
node that it refuses. A factory may read and change a state, so that the order of the calls matters.

* `Ast.visits`, `Ast.returns` — the nodes that construction gets to, in the order in which they are
  checked and in the order in which their factories are called. Nothing below a syntax error is visited.
* `Factories.refuses`, `Factories.complaint` — the nodes at which construction stops, and why.
* **`Factories.Performs`** — calls one after the other, each with the results for the children of its
  node.
* `construct_performs` — what construction of a part of a tree does after the calls before it.
* **`construct_calls_in_order`** — which factories are called, in which order and with which results, and
  what construction gives.
-/

namespace Packrat

/-! ## Visits -/

namespace Ast

mutual

/-- The number of nodes of a syntax tree. -/
def size : Ast → Nat
  | ⟨_, _, _, _, children⟩ => sizeAll children + 1

/-- The number of nodes of several syntax trees. -/
def sizeAll : List Ast → Nat
  | [] => 0
  | ast :: rest => size ast + sizeAll rest

end

/-- The label by which the factory of a node is looked up. -/
def factoryLabel (ast : Ast) : String := if ast.isError then errorLabel else ast.label

end Ast

/-- A node of a syntax tree, and where it stands. -/
structure Visit where
  /-- The number of nodes of the tree before it in pre-order. -/
  place : Nat
  /-- The place of the node above it, if there is one. -/
  parent : Option Nat
  /-- The node. -/
  node : Ast

/-- The place after all nodes of the subtree. -/
def Visit.stop (visit : Visit) : Nat := visit.place + visit.node.size

namespace Ast

mutual

/-- **The nodes that are not strictly below a syntax error**, in pre-order. -/
def visits (parent : Option Nat) (place : Nat) : Ast → List Visit
  | ⟨label, pos, len, error, children⟩ =>
    ⟨place, parent, ⟨label, pos, len, error, children⟩⟩ ::
      if error.isSome then [] else visitsOf place (place + 1) children

/-- Those of the children of a node. -/
def visitsOf (parent place : Nat) : List Ast → List Visit
  | [] => []
  | ast :: rest => visits (some parent) place ast ++ visitsOf parent (place + ast.size) rest

end

mutual

/-- **The same nodes in post-order.** -/
def returns (parent : Option Nat) (place : Nat) : Ast → List Visit
  | ⟨label, pos, len, error, children⟩ =>
    (if error.isSome then [] else returnsOf place (place + 1) children) ++
      [⟨place, parent, ⟨label, pos, len, error, children⟩⟩]

/-- Those of the children of a node. -/
def returnsOf (parent place : Nat) : List Ast → List Visit
  | [] => []
  | ast :: rest => returns (some parent) place ast ++ returnsOf parent (place + ast.size) rest

end

/-- A tree has a node. -/
theorem size_pos (ast : Ast) : 0 < ast.size := by
  cases ast
  rw [size]
  exact Nat.succ_pos _

mutual

/-- Both orders have the same nodes. -/
theorem returns_perm_visits (parent : Option Nat) (place : Nat) : (ast : Ast) →
    (returns parent place ast).Perm (visits parent place ast)
  | ⟨label, pos, len, error, children⟩ => by
    rw [returns, visits]
    refine List.perm_append_comm.trans (.cons _ ?_)
    split
    · exact .nil
    · exact returnsOf_perm_visitsOf place (place + 1) children

/-- Both orders have the same nodes below a node. -/
theorem returnsOf_perm_visitsOf (parent place : Nat) : (asts : List Ast) →
    (returnsOf parent place asts).Perm (visitsOf parent place asts)
  | [] => .nil
  | ast :: rest => by
    rw [returnsOf, visitsOf]
    exact (returns_perm_visits _ _ ast).append (returnsOf_perm_visitsOf _ _ rest)

end

mutual

/-- A subtree lies within its tree, and so does the node above its root, if that is not the root of the
tree. -/
theorem visit_within {parent : Option Nat} {place : Nat} : {ast : Ast} → ∀ visit ∈
    visits parent place ast, place ≤ visit.place ∧ visit.stop ≤ place + ast.size ∧
      (visit.parent = parent ∨
        ∃ above, visit.parent = some above ∧ place ≤ above ∧ above < visit.place)
  | ⟨label, pos, len, error, children⟩ => by
    intro visit hvisit
    rw [visits] at hvisit
    rcases List.mem_cons.1 hvisit with rfl | hbelow
    · exact ⟨Nat.le_refl _, Nat.le_refl _, .inl rfl⟩
    · split at hbelow
      · exact absurd hbelow List.not_mem_nil
      · obtain ⟨hplace, hstop, above, habove, hle⟩ := visit_within_all visit hbelow
        rw [size]
        exact ⟨by omega, by omega, .inr ⟨above, habove, by omega, by omega⟩⟩

/-- A subtree lies within the trees below a node, and so does the node above its root, if that is not the
node. -/
theorem visit_within_all {parent place : Nat} : {asts : List Ast} → ∀ visit ∈
    visitsOf parent place asts, place ≤ visit.place ∧ visit.stop ≤ place + sizeAll asts ∧
      ∃ above, visit.parent = some above ∧ (above = parent ∨ place ≤ above ∧ above < visit.place)
  | [] => fun _ hvisit => absurd hvisit List.not_mem_nil
  | ast :: rest => by
    intro visit hvisit
    rw [visitsOf] at hvisit
    rw [sizeAll]
    rcases List.mem_append.1 hvisit with hfirst | hrest
    · obtain ⟨hplace, hstop, hparent⟩ := visit_within visit hfirst
      refine ⟨hplace, by omega, ?_⟩
      rcases hparent with hparent | ⟨above, habove, hle⟩
      · exact ⟨parent, hparent, .inl rfl⟩
      · exact ⟨above, habove, .inr hle⟩
    · obtain ⟨hplace, hstop, above, habove, hle⟩ := visit_within_all visit hrest
      exact ⟨by omega, by omega, above, habove, by omega⟩

end

mutual

/-- Pre-order is the order of the places. -/
theorem visits_sorted (parent : Option Nat) (place : Nat) : (ast : Ast) →
    (visits parent place ast).Pairwise fun visit later => visit.place < later.place
  | ⟨label, pos, len, error, children⟩ => by
    rw [visits]
    split
    · exact List.pairwise_singleton _ _
    · refine List.pairwise_cons.2 ⟨fun visit hvisit => ?_, visitsOf_sorted place (place + 1) children⟩
      exact (visit_within_all visit hvisit).1

/-- Pre-order is the order of the places below a node. -/
theorem visitsOf_sorted (parent place : Nat) : (asts : List Ast) →
    (visitsOf parent place asts).Pairwise fun visit later => visit.place < later.place
  | [] => .nil
  | ast :: rest => by
    rw [visitsOf]
    refine List.pairwise_append.2
      ⟨visits_sorted _ _ ast, visitsOf_sorted _ _ rest, fun visit hvisit later hlater => ?_⟩
    have hstop := (visit_within visit hvisit).2.1
    have hplace := (visit_within_all later hlater).1
    have hpos := visit.node.size_pos
    rw [Visit.stop] at hstop
    omega

end

end Ast

/-- Nodes whose subtrees all precede a place. -/
theorem filter_stop_eq_self {visited : List Visit} {place : Nat}
    (h : ∀ visit ∈ visited, visit.stop ≤ place) : visited.filter (·.stop ≤ place) = visited :=
  List.filter_eq_self.2 fun visit hvisit => decide_eq_true (h visit hvisit)

/-- Nodes none of which precedes a place. -/
theorem filter_stop_eq_nil {visited : List Visit} {place : Nat}
    (h : ∀ visit ∈ visited, place ≤ visit.place) : visited.filter (·.stop ≤ place) = [] := by
  refine List.filter_eq_nil_iff.2 fun visit hvisit => ?_
  have hplace := h visit hvisit
  have hpos := visit.node.size_pos
  rw [decide_eq_true_eq, Visit.stop]
  omega

/-! ## Calls -/

namespace Factories

section refusing

variable {m : Type → Type} {α : Type}

/-- **Whether construction stops at a node**: it carries a syntax error and errors are not allowed or have
no factory, or it carries none and its label has no factory. -/
def refuses (factories : Factories m α) (allowErrors : Bool) (node : Ast) : Bool :=
  if node.isError then !allowErrors || !factories.contains Ast.errorLabel
  else !factories.contains node.label

/-- What construction stops with at such a node. -/
def complaint (allowErrors : Bool) (node : Ast) : CstError :=
  match node.error with
  | some e => if allowErrors then .missingFactory Ast.errorLabel else .syntaxError e.message
  | none => .missingFactory node.label

/-- The first node at which construction stops. -/
def firstRefused (factories : Factories m α) (allowErrors : Bool) (visited : List Visit) :
    Option Visit := visited.find? fun visit => factories.refuses allowErrors visit.node

/-- The first node at which construction stops is a node at which it does. -/
theorem mem_of_firstRefused {factories : Factories m α} {allowErrors : Bool} {visited : List Visit}
    {bad : Visit} (h : factories.firstRefused allowErrors visited = some bad) :
    bad ∈ visited ∧ factories.refuses allowErrors bad.node = true := by
  unfold firstRefused at h
  have hrefused := List.find?_some h
  exact ⟨List.mem_of_find?_eq_some h, hrefused⟩

/-- A node is refused, or the factory of its label is to build it. -/
theorem factoryFor_cases (factories : Factories m α) (allowErrors : Bool) (node : Ast) :
    (factories.refuses allowErrors node = true ∧
      factories.factoryFor allowErrors node.label node.error =
        .error (complaint allowErrors node)) ∨
    (factories.refuses allowErrors node = false ∧ ∃ factory,
      factories.get? node.factoryLabel = some factory ∧
        factories.factoryFor allowErrors node.label node.error = .ok factory) := by
  obtain ⟨label, pos, len, error, children⟩ := node
  cases error with
  | none =>
    cases hget : factories.get? label with
    | none => exact .inl ⟨by simp [refuses, Ast.isError, contains, hget], by
        simp [factoryFor, complaint, hget]; rfl⟩
    | some factory => exact .inr ⟨by simp [refuses, Ast.isError, contains, hget], factory, hget, by
        simp [factoryFor, hget]; rfl⟩
  | some e =>
    cases allowErrors with
    | false => exact .inl ⟨rfl, rfl⟩
    | true =>
      cases hget : factories.get? Ast.errorLabel with
      | none => exact .inl ⟨by simp [refuses, Ast.isError, contains, hget], by
          simp [factoryFor, complaint, hget]; rfl⟩
      | some factory => exact .inr ⟨by simp [refuses, Ast.isError, contains, hget], factory, hget, by
          simp [factoryFor, hget]; rfl⟩

end refusing

end Factories

/-- One call of a factory. -/
structure Call (α : Type) where
  /-- The node that it was called for. -/
  visit : Visit
  /-- The results that it was given. -/
  given : List α
  /-- Its result. -/
  value : α

/-- The results of the calls for the children of a node, in order. -/
def Call.answers {α : Type} (calls : List (Call α)) (place : Nat) : List α :=
  (calls.filter (·.visit.parent == some place)).map Call.value

/-- Results of calls and of more calls. -/
theorem Call.answers_append {α : Type} (calls more : List (Call α)) (place : Nat) :
    answers (calls ++ more) place = answers calls place ++ answers more place := by
  rw [answers, List.filter_append, List.map_append]
  rfl

/-- **Whether calls, one after the other, lead from one state to another.** Each one is a call of the
factory for its node, with the results of the calls before it that were made for the children of the
node. -/
inductive Factories.Performs {σ α : Type} (factories : Factories (StateM σ) α) (start : σ) :
    List (Call α) → σ → Prop where
  | nil : factories.Performs start [] start
  | snoc {calls : List (Call α)} {before after : σ} {visit : Visit} {value : α}
    {factory : Factory (StateM σ) α} :
    factories.Performs start calls before →
    factories.get? visit.node.factoryLabel = some factory →
    Id.run ((factory visit.node (Call.answers calls visit.place)).run before) = (value, after) →
    factories.Performs start (calls ++ [⟨visit, Call.answers calls visit.place, value⟩]) after

/-! ## Construction as a function of the state -/

namespace Ast

section stateful

variable {σ α : Type} {factories : Factories (StateM σ) α} {allowErrors : Bool}

/-- What construction gives, and the state that it ends in. -/
def constructFrom (factories : Factories (StateM σ) α) (allowErrors : Bool) (ast : Ast) (s : σ) :
    Except CstError α × σ := Id.run ((ast.construct factories allowErrors).run.run s)

/-- The same for several trees. -/
def constructAllFrom (factories : Factories (StateM σ) α) (allowErrors : Bool) (asts : List Ast)
    (s : σ) : Except CstError (List α) × σ :=
  Id.run ((constructAll factories allowErrors asts).run.run s)

/-- One computation after another that fails. -/
theorem run_bind_of_error {β γ : Type} {x : ExceptT CstError (StateM σ) β}
    {f : β → ExceptT CstError (StateM σ) γ} {s t : σ} {e : CstError}
    (h : Id.run (x.run.run s) = (.error e, t)) : Id.run ((x >>= f).run.run s) = (.error e, t) := by
  have hx : x.run.run s = pure (.error e, t) := h
  rw [ExceptT.run_bind, StateT.run_bind, hx]
  rfl

/-- One computation after another that gives a value. -/
theorem run_bind_of_value {β γ : Type} {x : ExceptT CstError (StateM σ) β}
    {f : β → ExceptT CstError (StateM σ) γ} {s t : σ} {b : β}
    (h : Id.run (x.run.run s) = (.ok b, t)) :
    Id.run ((x >>= f).run.run s) = Id.run ((f b).run.run t) := by
  have hx : x.run.run s = pure (.ok b, t) := h
  rw [ExceptT.run_bind, StateT.run_bind, hx]
  rfl

/-- A node that is refused. -/
theorem constructFrom_of_refused {ast : Ast} {e : CstError}
    (h : factories.factoryFor allowErrors ast.label ast.error = .error e) (s : σ) :
    ast.constructFrom factories allowErrors s = (.error e, s) := by
  obtain ⟨label, pos, len, error, children⟩ := ast
  rw [constructFrom, construct, h]
  rfl

/-- A node with a factory after its children, if it carries no syntax error. -/
theorem constructFrom_of_factory {ast : Ast} {factory : Factory (StateM σ) α}
    (h : factories.factoryFor allowErrors ast.label ast.error = .ok factory) (s : σ) :
    ast.constructFrom factories allowErrors s =
      Id.run ((do
        let values ← if ast.isError then pure [] else constructAll factories allowErrors ast.children
        ExceptT.lift (factory ast values) : ExceptT CstError (StateM σ) α).run.run s) := by
  obtain ⟨label, pos, len, error, children⟩ := ast
  rw [constructFrom, construct, h]
  rfl

end stateful

end Ast

/-! ## The order of the calls -/

section order

variable {σ α β : Type} {factories : Factories (StateM σ) α} {allowErrors : Bool}

/-- **How construction ends** that visits some nodes. If none of them is refused, their factories were all
called in the order of `returned`, and it gives a value; otherwise it stops at the first one that is, and
the factories of the nodes whose subtrees precede that one were called in the same order. -/
inductive Ends (factories : Factories (StateM σ) α) (allowErrors : Bool) (visited returned : List Visit)
    (calls : List (Call α)) (gives : β → Prop) : Except CstError β → Prop where
  | all {value : β} : factories.firstRefused allowErrors visited = none →
    calls.map Call.visit = returned → gives value →
    Ends factories allowErrors visited returned calls gives (.ok value)
  | stopped {bad : Visit} : factories.firstRefused allowErrors visited = some bad →
    calls.map Call.visit = returned.filter (·.stop ≤ bad.place) →
    Ends factories allowErrors visited returned calls gives
      (.error (Factories.complaint allowErrors bad.node))

/-- Whether calls were made for nodes that are below none from a place on. -/
def Call.Before (place : Nat) (calls : List (Call α)) : Prop :=
  ∀ call ∈ calls, ∀ above, call.visit.parent = some above → above < place

/-- Calls that were made before have no results for a node. -/
theorem Call.Before.answers_eq {place : Nat} {done : List (Call α)} (h : Before place done) :
    answers done place = [] := by
  have hnone : done.filter (·.visit.parent == some place) = [] := by
    refine List.filter_eq_nil_iff.2 fun call hcall hparent => ?_
    exact Nat.lt_irrefl place (h call hcall place (beq_iff_eq.1 hparent))
  rw [answers, hnone, List.map_nil]

/-- Calls that were made before are so later. -/
theorem Call.Before.mono {place later : Nat} {done : List (Call α)} (h : Before place done)
    (hle : place ≤ later) : Before later done :=
  fun call hcall above habove => Nat.lt_of_lt_of_le (h call hcall above habove) hle

/-- The calls for a tree are made before what comes after it. -/
theorem Call.Before.append {parent place : Nat} {ast : Ast} {done calls : List (Call α)}
    (h : Before place done) (hparent : parent < place)
    (hcalls : calls.map Call.visit = ast.returns (some parent) place) :
    Before (place + ast.size) (done ++ calls) := by
  intro call hcall above habove
  rcases List.mem_append.1 hcall with hdone | hcall
  · exact h.mono (Nat.le_add_right _ _) call hdone above habove
  · have hvisit : call.visit ∈ ast.returns (some parent) place := hcalls ▸ List.mem_map_of_mem hcall
    obtain ⟨-, hstop, hwithin⟩ :=
      Ast.visit_within _ ((Ast.returns_perm_visits _ _ ast).mem_iff.1 hvisit)
    have hpos := call.visit.node.size_pos
    rw [Visit.stop] at hstop
    rcases hwithin with hroot | ⟨other, hother, -, hlt⟩
    · cases habove.symm.trans hroot
      omega
    · cases habove.symm.trans hother
      omega

/-- The results for the node above a tree are that of the last call for the tree. -/
theorem answers_of_returns {parent place : Nat} {ast : Ast} {calls : List (Call α)} {value : α}
    (hparent : parent < place) (hcalls : calls.map Call.visit = ast.returns (some parent) place)
    (hvalue : calls.getLast?.map Call.value = some value) : Call.answers calls parent = [value] := by
  obtain ⟨label, pos, len, error, children⟩ := ast
  rw [Ast.returns] at hcalls
  obtain ⟨below, roots, rfl, hbelow, hroots⟩ := List.map_eq_append_iff.1 hcalls
  obtain ⟨root, rfl, hroot⟩ := List.map_eq_singleton_iff.1 hroots
  have hnone : below.filter (·.visit.parent == some parent) = [] := by
    refine List.filter_eq_nil_iff.2 fun call hcall hisParent => ?_
    have hvisit : call.visit ∈ below.map Call.visit := List.mem_map_of_mem hcall
    rw [hbelow] at hvisit
    split at hvisit
    · exact absurd hvisit List.not_mem_nil
    · obtain ⟨-, -, above, habove, hle⟩ :=
        Ast.visit_within_all _ ((Ast.returnsOf_perm_visitsOf _ _ children).mem_iff.1 hvisit)
      rw [beq_iff_eq, habove] at hisParent
      cases hisParent
      omega
  rw [List.getLast?_concat, Option.map_some] at hvalue
  have hself : [root].filter (·.visit.parent == some parent) = [root] := by simp [hroot]
  rw [Call.answers, List.filter_append, hnone, List.nil_append, hself, List.map_singleton,
    Option.some.inj hvalue]

/-- What construction does after calls that were made before: from a state, and with calls that lead from
there to another, it goes on with some more. -/
def GoesOn (factories : Factories (StateM σ) α) (place : Nat) (calls : List (Call α)) (s t : σ) : Prop :=
  ∀ start done, Call.Before place done → factories.Performs start done s →
    factories.Performs start (done ++ calls) t

/-- No call. -/
theorem GoesOn.nil {place : Nat} {s : σ} : GoesOn factories place [] s s := by
  intro start done _ hdone
  rwa [List.append_nil]

/-- Fewer calls before. -/
theorem GoesOn.mono {place later : Nat} {calls : List (Call α)} {s t : σ}
    (h : GoesOn factories later calls s t) (hle : place ≤ later) : GoesOn factories place calls s t :=
  fun start done hbefore hdone => h start done (hbefore.mono hle) hdone

/-- The calls for a tree, and then those for what comes after it. -/
theorem GoesOn.append {parent place : Nat} {ast : Ast} {calls more : List (Call α)} {s t u : σ}
    (hparent : parent < place) (h : GoesOn factories place calls s t)
    (hcalls : calls.map Call.visit = ast.returns (some parent) place)
    (hmore : GoesOn factories (place + ast.size) more t u) :
    GoesOn factories place (calls ++ more) s u := by
  intro start done hbefore hdone
  rw [← List.append_assoc]
  exact hmore start _ (hbefore.append hparent hcalls) (h start done hbefore hdone)

/-- The call for a node after those for its children. -/
theorem GoesOn.snoc {place : Nat} {calls : List (Call α)} {s t u : σ} {visit : Visit} {value : α}
    {factory : Factory (StateM σ) α} (hplace : visit.place = place)
    (h : GoesOn factories (place + 1) calls s t)
    (hfactory : factories.get? visit.node.factoryLabel = some factory)
    (hcall : Id.run ((factory visit.node (Call.answers calls place)).run t) = (value, u)) :
    GoesOn factories place (calls ++ [⟨visit, Call.answers calls place, value⟩]) s u := by
  intro start done hbefore hdone
  have hanswers : Call.answers (done ++ calls) place = Call.answers calls place := by
    rw [Call.answers_append, hbefore.answers_eq, List.nil_append]
  subst hplace
  rw [← List.append_assoc, ← hanswers]
  rw [← hanswers] at hcall
  exact .snoc (h start done (hbefore.mono (Nat.le_succ _)) hdone) hfactory hcall

/-- The root of a tree does not precede what is below it. -/
theorem filter_stop_root {parent : Option Nat} {place pos len : Nat} {label : String}
    {error : Option SyntaxError} {children : List Ast} {bad : Visit}
    (hbad : factories.firstRefused allowErrors (Ast.visitsOf place (place + 1) children) = some bad) :
    [(⟨place, parent, ⟨label, pos, len, error, children⟩⟩ : Visit)].filter (·.stop ≤ bad.place) =
      [] := by
  have hin := (Ast.visit_within_all bad (Factories.mem_of_firstRefused hbad).1).2.1
  have hpos := bad.node.size_pos
  rw [Visit.stop] at hin
  refine List.filter_eq_nil_iff.2 fun visit hvisit => ?_
  obtain rfl := List.mem_singleton.1 hvisit
  rw [decide_eq_true_eq, Visit.stop, Ast.size]
  show ¬place + (Ast.sizeAll children + 1) ≤ bad.place
  omega

mutual

/-- **Construction of a tree** after the calls that were made before. -/
theorem construct_performs (parent : Option Nat) (place : Nat) : (ast : Ast) → ∀ s : σ,
    ∃ calls t result, ast.constructFrom factories allowErrors s = (result, t) ∧
      GoesOn factories place calls s t ∧
      Ends factories allowErrors (ast.visits parent place) (ast.returns parent place) calls
        (fun value => calls.getLast?.map Call.value = some value) result
  | ⟨label, pos, len, error, children⟩, s => by
    let root : Visit := ⟨place, parent, ⟨label, pos, len, error, children⟩⟩
    rcases factories.factoryFor_cases allowErrors root.node with
      ⟨hrefused, hnone⟩ | ⟨haccepted, factory, hget, hfactory⟩
    · have hfirst : factories.firstRefused allowErrors (root.node.visits parent place) = some root := by
        rw [Factories.firstRefused, Ast.visits, List.find?_cons, hrefused]
      have hpreceding : (root.node.returns parent place).filter (·.stop ≤ root.place) = [] :=
        filter_stop_eq_nil fun visit hvisit =>
          (Ast.visit_within visit ((Ast.returns_perm_visits _ _ _).mem_iff.1 hvisit)).1
      exact ⟨[], s, _, Ast.constructFrom_of_refused hnone s, .nil, .stopped hfirst hpreceding.symm⟩
    · have hfirst : factories.firstRefused allowErrors (root.node.visits parent place) =
          factories.firstRefused allowErrors
            (if error.isSome then [] else Ast.visitsOf place (place + 1) children) := by
        rw [Factories.firstRefused, Ast.visits, List.find?_cons, haccepted]
        rfl
      have hstart := Ast.constructFrom_of_factory hfactory s
      cases error with
      | some e =>
        rcases hcall : Id.run ((factory root.node []).run s) with ⟨value, t⟩
        have hrun := hstart.trans (congrArg (fun made => (Except.ok made.1, made.2)) hcall)
        have hgoes : GoesOn factories place ([] ++ [⟨root, [], value⟩]) s t := .snoc rfl .nil hget hcall
        exact ⟨_, t, _, hrun, hgoes, .all hfirst rfl rfl⟩
      | none =>
        obtain ⟨calls, t, result, hbelow, hgoes, hends⟩ :=
          constructAll_performs (Nat.lt_succ_self place) children s
        have hreturns : root.node.returns parent place =
            Ast.returnsOf place (place + 1) children ++ [root] := by
          rw [Ast.returns]
          rfl
        rw [Option.isSome_none, if_neg Bool.false_ne_true] at hfirst
        cases hends with
        | @stopped bad hbad hcalls =>
          have hpreceding : calls.map Call.visit =
              (root.node.returns parent place).filter (·.stop ≤ bad.place) := by
            rw [hreturns, List.filter_append, filter_stop_root hbad, List.append_nil, hcalls]
          exact ⟨calls, t, _, hstart.trans (Ast.run_bind_of_error hbelow),
            hgoes.mono (Nat.le_succ place), .stopped (hfirst.trans hbad) hpreceding⟩
        | @all values hbad hcalls hvalues =>
          subst hvalues
          rcases hcall : Id.run ((factory root.node (Call.answers calls place)).run t) with ⟨value, u⟩
          have hrun := hstart.trans ((Ast.run_bind_of_value hbelow).trans
            (congrArg (fun made => (Except.ok made.1, made.2)) hcall))
          have hgoes' : GoesOn factories place
              (calls ++ [⟨root, Call.answers calls place, value⟩]) s u := .snoc rfl hgoes hget hcall
          refine ⟨_, u, _, hrun, hgoes', .all (hfirst.trans hbad) ?_ ?_⟩
          · rw [List.map_append, hcalls, hreturns]
            rfl
          · rw [List.getLast?_concat]
            rfl

/-- Construction of several trees below a node after the calls that were made before. -/
theorem constructAll_performs {parent place : Nat} (hparent : parent < place) : (asts : List Ast) →
    ∀ s : σ, ∃ calls t result, Ast.constructAllFrom factories allowErrors asts s = (result, t) ∧
      GoesOn factories place calls s t ∧
      Ends factories allowErrors (Ast.visitsOf parent place asts) (Ast.returnsOf parent place asts) calls
        (· = Call.answers calls parent) result
  | [], s => ⟨[], s, .ok [], rfl, .nil, .all rfl rfl rfl⟩
  | ast :: rest, s => by
    have hsplit : factories.firstRefused allowErrors (Ast.visitsOf parent place (ast :: rest)) =
        (factories.firstRefused allowErrors (ast.visits (some parent) place)).or
          (factories.firstRefused allowErrors (Ast.visitsOf parent (place + ast.size) rest)) := by
      rw [Ast.visitsOf]
      exact List.find?_append
    obtain ⟨calls, t, result, hrun, hgoes, hends⟩ := construct_performs (some parent) place ast s
    rw [Ast.constructAllFrom, Ast.constructAll]
    cases hends with
    | @stopped bad hbad hcalls =>
      have hin := (Ast.visit_within bad (Factories.mem_of_firstRefused hbad).1).2.1
      have hpos := bad.node.size_pos
      have hlater : (Ast.returnsOf parent (place + ast.size) rest).filter (·.stop ≤ bad.place) = [] := by
        refine filter_stop_eq_nil fun visit hvisit => ?_
        have hplace :=
          (Ast.visit_within_all visit ((Ast.returnsOf_perm_visitsOf _ _ rest).mem_iff.1 hvisit)).1
        rw [Visit.stop] at hin
        omega
      rw [hbad, Option.some_or] at hsplit
      refine ⟨calls, t, _, Ast.run_bind_of_error hrun, hgoes, .stopped hsplit ?_⟩
      rw [Ast.returnsOf, List.filter_append, hlater, List.append_nil, hcalls]
    | @all value hnone hcalls hvalue =>
      obtain ⟨more, u, others, hrest, hmore, hends⟩ :=
        constructAll_performs (Nat.lt_add_right ast.size hparent) rest t
      have hgoes' := GoesOn.append hparent hgoes hcalls hmore
      rw [hnone, Option.none_or] at hsplit
      cases hends with
      | @stopped bad hbad hothers =>
        have hin := (Ast.visit_within_all bad (Factories.mem_of_firstRefused hbad).1).1
        have hearlier : (ast.returns (some parent) place).filter (·.stop ≤ bad.place) =
            ast.returns (some parent) place := by
          refine filter_stop_eq_self fun visit hvisit => ?_
          have hstop :=
            (Ast.visit_within visit ((Ast.returns_perm_visits _ _ ast).mem_iff.1 hvisit)).2.1
          omega
        refine ⟨_, u, _, (Ast.run_bind_of_value hrun).trans (Ast.run_bind_of_error hrest), hgoes',
          .stopped (hsplit.trans hbad) ?_⟩
        rw [Ast.returnsOf, List.filter_append, hearlier, List.map_append, hcalls, hothers]
      | @all values hnone' hothers hvalues =>
        subst hvalues
        refine ⟨_, u, _, (Ast.run_bind_of_value hrun).trans (Ast.run_bind_of_value hrest), hgoes',
          .all (hsplit.trans hnone') ?_ ?_⟩
        · rw [Ast.returnsOf, List.map_append, hcalls, hothers]
        · rw [Call.answers_append, answers_of_returns hparent hcalls hvalue]
          rfl

end

end order

/-- **Factories are called from the leaves up until a node is refused.** Whatever the syntax tree, the
factories and their state are, construction gives a value if and only if no node is refused that is not
strictly below a syntax error. It calls the factories of all these nodes once each, in post-order, with
the results for their children in order, and gives the last result. If some are refused, it gives the
error of the first one in pre-order, and has called the factories of exactly the nodes whose whole
subtree precedes that one, in post-order as well. -/
theorem construct_calls_in_order {σ α : Type} (factories : Factories (StateM σ) α) (allowErrors : Bool)
    (ast : Ast) (s : σ) :
    (ast.visits none 0).Pairwise (fun visit later => visit.place < later.place) ∧
      (ast.returns none 0).Perm (ast.visits none 0) ∧
      ∃ calls t result, Id.run ((ast.construct factories allowErrors).run.run s) = (result, t) ∧
        factories.Performs s calls t ∧
        ((∃ value, result = .ok value) ↔
          ∀ visit ∈ ast.visits none 0, factories.refuses allowErrors visit.node = false) ∧
        Ends factories allowErrors (ast.visits none 0) (ast.returns none 0) calls
          (fun value => calls.getLast?.map Call.value = some value) result := by
  refine ⟨Ast.visits_sorted none 0 ast, Ast.returns_perm_visits none 0 ast, ?_⟩
  obtain ⟨calls, t, result, hrun, hgoes, hends⟩ := construct_performs none 0 ast s
  refine ⟨calls, t, result, hrun, hgoes s [] (List.forall_mem_nil _) .nil, ?_, hends⟩
  cases hends with
  | @all value hnone _ _ =>
    refine ⟨fun _ visit hvisit => ?_, fun _ => ⟨value, rfl⟩⟩
    exact Bool.eq_false_iff.2 (List.find?_eq_none.1 hnone visit hvisit)
  | @stopped bad hbad _ =>
    refine ⟨nofun, fun hall => ?_⟩
    obtain ⟨hmem, hrefused⟩ := Factories.mem_of_firstRefused hbad
    rw [hall bad hmem] at hrefused
    cases hrefused

end Packrat
