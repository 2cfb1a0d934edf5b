import Packrat.Proofs.Delimiters

/-!
# Conditions on all nodes of a tree

* `Node.Throughout` — a condition on all nodes of a tree.
* `chooseAlternative_gives` — a choice takes one of the matches that it is given.
* `iterate_throughout` — the iterations of a repetition are matches that it is given, or input passed
  over.
* **`evaluate_throughout`** — evaluating a clause whose own matches satisfy the condition gives trees
  that satisfy it throughout if the matcher does. Sequences are left out: what is asked of them is asked
  of their children in order.
-/

namespace Packrat

/-! ## Trees -/

/-- Whether a condition holds of all nodes of a tree. -/
def Node.Throughout (P : Node → Prop) (node : Node) : Prop := ∀ other ∈ node.nodes, P other

/-- Whether a match, if there is one, is one of a clause that satisfies a condition throughout. -/
def Outcome.Throughout (P : Node → Prop) (outcome : Outcome) : Prop :=
  ∀ node, outcome = .matched node → node.isSkip = false ∧ node.Throughout P

section throughout

variable {P : Node → Prop} {id : ClauseId}

/-- A match without children. -/
theorem Node.throughout_leaf {info : NodeInfo} (h : P (.clause info [])) :
    (Node.clause info []).Throughout P := by
  intro other hother
  simp only [nodes, nodesOf, List.mem_singleton] at hother
  exact hother ▸ h

/-- A match with children. -/
theorem Node.throughout_wrap {children : List Node} {complete : Bool}
    (hself : P (wrap id children complete)) (h : ∀ child ∈ children, child.Throughout P) :
    (wrap id children complete).Throughout P := by
  intro other hother
  rw [wrap, nodes] at hother
  rcases List.mem_cons.1 hother with rfl | hother
  · exact hself
  · obtain ⟨child, hchild, hother⟩ := mem_nodesOf.1 hother
    exact h child hchild other hother

/-- What is no match. -/
theorem Outcome.throughout_of_not_isMatch {outcome : Outcome} (h : outcome.isMatch = false) :
    outcome.Throughout P := by
  rintro node rfl
  cases h

/-- A match. -/
theorem Outcome.throughout_matched {info : NodeInfo} {children : List Node}
    (h : (Node.clause info children).Throughout P) :
    (Outcome.matched (.clause info children)).Throughout P := by
  rintro _ ⟨⟩
  exact ⟨rfl, h⟩

end throughout

/-! ## Evaluating -/

section evaluation

variable {ctx : Context} {I : Session → Prop} {matcher : Matcher} {phase : Phase} {id : ClauseId}
  {pos : Nat} {bound : Option ClauseId}

section choices

variable {N : Node → Prop}
  (hM : ∀ other, Ensures True I (matcher phase other pos bound) fun outcome =>
    ∀ node, outcome = .matched node → N node)
include hM

/-- The most plausible alternative is one of the matches. -/
theorem bestAlternative_gives : ∀ {rest : List ClauseId} {best : Node}, N best →
    Ensures True I (bestAlternative matcher phase pos bound rest best) N
  | [], _, hbest => .pure hbest
  | alternative :: rest, best, hbest => by
    rw [bestAlternative]
    refine .bind (hM alternative) fun outcome houtcome => ?_
    split
    · rename_i candidate
      have hchosen : N (if preferred candidate best then candidate else best) := by
        split
        · exact houtcome candidate rfl
        · exact hbest
      generalize (if preferred candidate best then candidate else best) = chosen at hchosen ⊢
      show Ensures True I (if _ then pure chosen else _) _
      split
      · exact .pure hchosen
      · exact bestAlternative_gives hchosen
    · exact bestAlternative_gives hbest

/-- The first alternative that matches is one of the matches. -/
theorem firstAlternative_gives : ∀ {alternatives : List ClauseId},
    Ensures True I (firstAlternative matcher phase pos bound alternatives)
      fun r => ∀ node, r = some node → N node
  | [] => .pure nofun
  | alternative :: rest => by
    rw [firstAlternative]
    refine .bind (hM alternative) fun outcome houtcome => ?_
    split
    · rename_i node
      refine .pure ?_
      rintro _ ⟨⟩
      exact houtcome node rfl
    · exact firstAlternative_gives

/-- The alternative that a choice takes is one of the matches. -/
theorem chooseAlternative_gives {alternatives : List ClauseId} :
    Ensures True I (chooseAlternative matcher phase pos bound alternatives)
      fun r => ∀ node, r = some node → N node := by
  cases alternatives with
  | nil => exact .pure nofun
  | cons alternative rest =>
    rw [chooseAlternative]
    refine .bind (hM alternative) fun outcome houtcome => ?_
    split
    · rename_i node
      split
      · refine .bind (bestAlternative_gives hM (houtcome node rfl)) fun best hbest => .pure ?_
        rintro _ ⟨⟩
        exact hbest
      · refine .pure ?_
        rintro _ ⟨⟩
        exact houtcome node rfl
    · exact firstAlternative_gives hM

end choices

variable {P : Node → Prop}
  (hM : ∀ phase id pos bound, Ensures True I (matcher phase id pos bound) (Outcome.Throughout P))

section repetitions

variable (hI : Stable ctx I) (hskip : ∀ place len, P (.skipped place len))
include hM

/-- The match with which a repetition goes on. -/
theorem repairRepetition_throughout {item : ClauseId} {repaired : Bool} :
    Ensures True I (repairRepetition ctx (matcher .discovery · · none) item pos repaired)
      fun r => ∀ repair, r = some repair → ∀ node, repair.resumed = some node → node.Throughout P := by
  have hround : ∀ skip, Ensures True I
      (do return (← matcher .discovery item (pos + skip) none).node?.map fun node =>
        (⟨skip, some node⟩ : RepetitionRepair))
      fun r => ∀ repair, r = some repair → ∀ node, repair.resumed = some node → node.Throughout P := by
    intro skip
    refine .bind (hM _ _ _ _) fun outcome houtcome => .pure ?_
    intro repair hrepair
    obtain ⟨node, hnode, rfl⟩ := Option.map_eq_some_iff.1 hrepair
    rintro _ ⟨⟩
    cases outcome with
    | matched other =>
      cases hnode
      exact (houtcome node rfl).2
    | mismatch | pending => cases hnode
  unfold repairRepetition
  refine .bind (.findSomeM? fun skip _ => hround skip) fun found hfound => ?_
  split
  · exact .pure hfound
  · split
    · refine .pure ?_
      rintro _ ⟨⟩
      exact nofun
    · exact .pure nofun

include hI hskip

/-- The iterations of a repetition. -/
theorem iterate_throughout {item : ClauseId} : ∀ {fuel pos : Nat} {repaired : Bool},
    Ensures True I (iterate ctx matcher phase id item bound fuel pos repaired)
      fun r => ∀ node ∈ r.1, node.Throughout P
  | 0, _, _ => .throw trivial
  | fuel + 1, pos, repaired => by
    have hskipped : ∀ place len, (Node.skipped place len).Throughout P := by
      intro place len other hother
      rw [Node.nodes, List.mem_singleton] at hother
      exact hother ▸ hskip place len
    have hbound : Ensures True I (boundReached matcher phase bound pos) fun _ => True := by
      unfold boundReached
      split
      · exact .bind (hM _ _ _ _) fun _ _ => .pure trivial
      · exact .pure trivial
    have hnone : ∀ node ∈ ([] : List Node), node.Throughout P := List.forall_mem_nil _
    rw [iterate]
    split
    · exact .pure hnone
    refine .bind hbound fun reached _ => ?_
    split
    · exact .pure hnone
    refine .bind (hM _ _ _ _) fun outcome houtcome => ?_
    split
    · rename_i node
      split
      · exact .pure hnone
      · refine .bind iterate_throughout fun result hresult => .pure ?_
        exact List.forall_mem_cons.2 ⟨(houtcome node rfl).2, hresult⟩
    · split
      · exact .pure hnone
      refine .bind (repairRepetition_throughout hM) fun repair hrepair => ?_
      split
      · exact .pure hnone
      · rename_i skip resumed
        refine .bind (recordRepair_partial hI) fun _ _ => .bind (hI.note _).of_total fun _ _ => ?_
        cases resumed with
        | none => exact .pure (List.forall_mem_cons.2 ⟨hskipped _ _, hnone⟩)
        | some node =>
          refine .bind iterate_throughout fun result hresult => .pure ?_
          exact List.forall_mem_cons.2
            ⟨hskipped _ _, List.forall_mem_cons.2 ⟨hrepair _ rfl node rfl, hresult⟩⟩

end repetitions

include hM

/-- **Evaluating a clause other than a sequence** gives trees that satisfy a condition throughout, if the
clause's own matches satisfy it and the matcher gives such trees. -/
theorem evaluate_throughout (hI : Stable ctx I) (hskip : ∀ place len, P (.skipped place len))
    (hself : ∀ info children, info.clause = id → P (.clause info children)) {clause : Clause}
    (hkind : ∀ elements, clause ≠ .seq elements) :
    Ensures True I (evaluate ctx matcher phase id clause pos bound) (Outcome.Throughout P) := by
  have hleaf : ∀ place len complete,
      (Outcome.matched (.clause ⟨id, place, len, complete, false, 0⟩ [])).Throughout P :=
    fun place len complete => Outcome.throughout_matched (Node.throughout_leaf (hself _ _ rfl))
  have hwrap : ∀ children complete, (∀ child ∈ children, child.Throughout P) →
      (Outcome.matched (.wrap id children complete)).Throughout P :=
    fun children complete h => Outcome.throughout_matched (Node.throughout_wrap (hself _ _ rfl) h)
  have hnone : ∀ {outcome : Outcome}, outcome.isMatch = false → outcome.Throughout P :=
    Outcome.throughout_of_not_isMatch
  have hchar : ∀ accepts, (evaluateChar ctx id pos accepts).Throughout P := by
    intro accepts
    unfold evaluateChar
    split
    · exact hleaf _ _ _
    · exact hnone rfl
  cases clause with
  | seq elements => exact absurd rfl (hkind elements)
  | literal text =>
    refine .pure ?_
    split
    · exact hleaf _ _ _
    · exact hnone rfl
  | char c => exact .pure (hchar _)
  | charClass ranges inverted => exact .pure (hchar _)
  | anyChar => exact .pure (hchar _)
  | empty => exact .pure (hleaf _ _ _)
  | choice alternatives =>
    refine .bind (chooseAlternative_gives fun other => (hM phase other pos bound).mono
      fun outcome houtcome node hnode => (houtcome node hnode).2) fun result hresult => ?_
    cases result with
    | none => exact .pure (hnone rfl)
    | some node => exact .pure (hwrap _ _ (List.forall_mem_singleton.2 (hresult node rfl)))
  | repeated item atLeastOne =>
    refine .bind (iterate_throughout hM hI hskip) fun result hresult => ?_
    obtain ⟨_ | ⟨node, nodes⟩, short⟩ := result
    · refine .pure ?_
      split
      · exact hnone rfl
      · exact hleaf _ _ _
    · exact .pure (hwrap _ _ hresult)
  | optional item =>
    refine .bind (hM _ _ _ _) fun outcome houtcome => ?_
    cases outcome with
    | matched node => exact .pure (hwrap _ _ (List.forall_mem_singleton.2 (houtcome node rfl).2))
    | mismatch | pending => exact .pure (hleaf _ _ _)
  | reference name target =>
    refine .bind (hM _ _ _ _) fun outcome houtcome => ?_
    cases outcome with
    | matched node => exact .pure (hwrap _ _ (List.forall_mem_singleton.2 (houtcome node rfl).2))
    | mismatch | pending => exact .pure (hnone rfl)
  | ahead item =>
    refine .bind (hM _ _ _ _) fun outcome _ => ?_
    split
    · exact .pure (hleaf _ _ _)
    · exact .pure (hnone rfl)
  | notAhead item =>
    refine .bind (hM _ _ _ _) fun outcome _ => ?_
    split
    · exact .pure (hnone rfl)
    · exact .pure (hleaf _ _ _)

end evaluation

end Packrat
