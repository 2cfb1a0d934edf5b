import Packrat.Proofs.Transparency

/-!
# Left recursion

A rule `A` whose body is a choice between sequences that start with `A` itself, the *steps*, and
clauses after them, the *bases*. By the rules alone such a rule has no outcome anywhere: it comes
back to itself at the same position. What it is meant to match is said here without a chart.

* `Step`, `Grammar.LeftRecursive` — a rule of that form.
* `PlainRow`, `PlainNode` — what the rest of a step and what a base match by the rules alone.
* `FirstOf`, `FirstStep`, `FirstBase` — what the first item of a list gives that gives anything.
* **`Grows`** — the growth of a match of the rule: as long as the rest of some step matches where the
  match ends, and covers input there, the first such step makes a longer match with the shorter one
  as its first element. It has one end (`Grows.unique`).
* `LeftRecursive.not_plain` — the rule and its steps have no plain outcome.
* `Plain.sound`, `PlainRow.tiles` — plain matches are match trees, and those of a row stand one after
  the other.
-/

namespace Packrat

/-! ## The form of a rule -/

/-- An alternative of a rule that starts with the rule itself. -/
structure Step where
  /-- The sequence. -/
  id : ClauseId
  /-- Its first element, which refers to the rule. -/
  self : ClauseId
  /-- The elements after that. -/
  tail : List ClauseId

/-- **Whether a rule is directly left recursive**: its body is a choice between steps and, after
them, bases. -/
structure Grammar.LeftRecursive (g : Grammar) (top : ClauseId) (steps : List Step)
    (bases : List ClauseId) : Prop where
  /-- The body is the choice. -/
  body : g.clause? top = some (.choice (steps.map Step.id ++ bases))
  /-- There is a step. -/
  steps_ne : steps ≠ []
  /-- Each step is a sequence. -/
  seq : ∀ step ∈ steps, g.clause? step.id = some (.seq (step.self :: step.tail))
  /-- Each step starts with the rule. -/
  self : ∀ step ∈ steps, ∃ name, g.clause? step.self = some (.reference name top)

/-! ## What it matches -/

/-- Whether the elements of a row match so by the rules alone, or one of them does not. -/
def PlainRow (ctx : Context) (elements : List ClauseId) (pos : Nat) (row : Option (List Node)) :
    Prop :=
  ∃ fuel, plainElements (plainAtFuel ctx fuel) elements pos = some row

/-- Whether a clause matches so by the rules alone, or does not match. -/
def PlainNode (ctx : Context) (id : ClauseId) (pos : Nat) (node : Option Node) : Prop :=
  ∃ outcome, Plain ctx id pos outcome ∧ outcome.node? = node

/-- What the first item of a list gives that gives anything. -/
inductive FirstOf {α β : Type} (gives : α → Option β → Prop) : List α → Option (α × β) → Prop where
  | nil : FirstOf gives [] none
  | here {a : α} {b : β} {rest : List α} : gives a (some b) → FirstOf gives (a :: rest) (some (a, b))
  | later {a : α} {rest : List α} {found : Option (α × β)} : gives a none →
      FirstOf gives rest found → FirstOf gives (a :: rest) found

/-- What the first step gives whose rest matches at a position. -/
def FirstStep (ctx : Context) (steps : List Step) (pos : Nat) (found : Option (Step × List Node)) :
    Prop :=
  FirstOf (fun step row => PlainRow ctx step.tail pos row) steps found

/-- What the first base gives that matches at a position. -/
def FirstBase (ctx : Context) (bases : List ClauseId) (pos : Nat)
    (found : Option (ClauseId × Node)) : Prop :=
  FirstOf (fun base node => PlainNode ctx base pos node) bases found

/-- The match of a clause that takes over a match of another. -/
def Node.lift (id : ClauseId) (node : Node) : Node := .wrapOne id node node.isComplete

/-- The match of a step, from a match of the rule and those of the elements after it. -/
def Step.row (step : Step) (node : Node) (rest : List Node) : Node :=
  .wrap step.id (node.lift step.self :: rest) ((node.lift step.self :: rest).all Node.isComplete)

/-- How many characters nodes in a row cover. -/
def covered (nodes : List Node) : Nat := nodes.foldr (fun node total => node.len + total) 0

/-- **The growth of a match** of the rule `top`. It ends where no step goes on, or the first one that
does covers no input. -/
inductive Grows (ctx : Context) (top : ClauseId) (steps : List Step) : Node → Node → Prop where
  | ended {node : Node} : FirstStep ctx steps node.stop none → Grows ctx top steps node node
  | idle {node : Node} {step : Step} {rest : List Node} :
      FirstStep ctx steps node.stop (some (step, rest)) → covered rest = 0 →
      Grows ctx top steps node node
  | step {node final : Node} {step : Step} {rest : List Node} :
      FirstStep ctx steps node.stop (some (step, rest)) → 0 < covered rest →
      Grows ctx top steps ((step.row node rest).lift top) final → Grows ctx top steps node final

/-! ## First items -/

namespace FirstOf

variable {α β γ : Type} {gives : α → Option β → Prop} {items : List α}

/-- What is found is given by an item. -/
theorem mem {a : α} {b : β} (h : FirstOf gives items (some (a, b))) :
    a ∈ items ∧ gives a (some b) := by
  generalize hfound : some (a, b) = found at h
  induction h with
  | nil => cases hfound
  | here hgives =>
    cases hfound
    exact ⟨List.mem_cons_self, hgives⟩
  | later _ _ ih => exact ⟨List.mem_cons_of_mem _ (ih hfound).1, (ih hfound).2⟩

/-- If nothing is found then no item gives anything. -/
theorem not_mem (h : FirstOf gives items none) : ∀ a ∈ items, gives a none := by
  generalize hfound : (none : Option (α × β)) = found at h
  induction h with
  | nil => exact nofun
  | here _ => cases hfound
  | later hgives _ ih =>
    intro a ha
    rcases List.mem_cons.1 ha with rfl | ha
    · exact hgives
    · exact ih hfound a ha

/-- One thing is found, if each item gives one. -/
theorem unique (hgives : ∀ a b c, gives a b → gives a c → b = c) {found found' : Option (α × β)}
    (h : FirstOf gives items found) (h' : FirstOf gives items found') : found = found' := by
  induction h with
  | nil =>
    cases h'
    rfl
  | here hb =>
    cases h' with
    | here hc =>
      cases hgives _ _ _ hb hc
      rfl
    | later hc _ => cases hgives _ _ _ hb hc
  | later hb _ ih =>
    cases h' with
    | here hc => cases hgives _ _ _ hb hc
    | later _ hrest => exact ih hrest

/-- Items that give images of what they give otherwise. -/
theorem of_map {gives' : α → Option γ → Prop} {f : α → β → γ}
    (hmap : ∀ a c, gives' a c → ∃ b, gives a b ∧ c = b.map (f a)) {found : Option (α × γ)}
    (h : FirstOf gives' items found) :
    ∃ found', FirstOf gives items found' ∧
      found = found'.map fun item => (item.1, f item.1 item.2) := by
  induction h with
  | nil => exact ⟨none, .nil, rfl⟩
  | here hc =>
    obtain ⟨b, hb, heq⟩ := hmap _ _ hc
    obtain ⟨b, rfl, rfl⟩ := Option.map_eq_some_iff.1 heq.symm
    exact ⟨_, .here hb, rfl⟩
  | later hc _ ih =>
    obtain ⟨b, hb, heq⟩ := hmap _ _ hc
    obtain rfl := Option.map_eq_none_iff.1 heq.symm
    obtain ⟨found', hfound', rfl⟩ := ih
    exact ⟨found', .later hb hfound', rfl⟩

end FirstOf

/-! ## Plain matches -/

/-- Nodes in a row cover what the first does and what the others do. -/
theorem covered_cons (node : Node) (nodes : List Node) :
    covered (node :: nodes) = node.len + covered nodes := rfl

/-- A row has at most one plain outcome. -/
theorem PlainRow.unique {ctx : Context} {elements : List ClauseId} {pos : Nat}
    {row row' : Option (List Node)} (h : PlainRow ctx elements pos row)
    (h' : PlainRow ctx elements pos row') : row = row' := by
  obtain ⟨fuel, hfuel⟩ := h
  obtain ⟨fuel', hfuel'⟩ := h'
  have hmax := plainElements_within (plainAtFuel_mono_success ctx (Nat.le_max_left fuel fuel'))
    elements pos row hfuel
  have hmax' := plainElements_within (plainAtFuel_mono_success ctx (Nat.le_max_right fuel fuel'))
    elements pos row' hfuel'
  exact Option.some.inj (hmax.symm.trans hmax')

/-- A clause has at most one plain match. -/
theorem PlainNode.unique {ctx : Context} {id : ClauseId} {pos : Nat} {node node' : Option Node}
    (h : PlainNode ctx id pos node) (h' : PlainNode ctx id pos node') : node = node' := by
  obtain ⟨outcome, houtcome, rfl⟩ := h
  obtain ⟨outcome', houtcome', rfl⟩ := h'
  rw [houtcome.unique houtcome']

/-- At most one step is the first. -/
theorem FirstStep.unique {ctx : Context} {steps : List Step} {pos : Nat}
    {found found' : Option (Step × List Node)} (h : FirstStep ctx steps pos found)
    (h' : FirstStep ctx steps pos found') : found = found' :=
  FirstOf.unique (fun _ _ _ hrow hrow' => hrow.unique hrow') h h'

/-- At most one base is the first. -/
theorem FirstBase.unique {ctx : Context} {bases : List ClauseId} {pos : Nat}
    {found found' : Option (ClauseId × Node)} (h : FirstBase ctx bases pos found)
    (h' : FirstBase ctx bases pos found') : found = found' :=
  FirstOf.unique (fun _ _ _ hnode hnode' => hnode.unique hnode') h h'

/-- **The growth of a match has one end.** -/
theorem Grows.unique {ctx : Context} {top : ClauseId} {steps : List Step} {node final final' : Node}
    (h : Grows ctx top steps node final) (h' : Grows ctx top steps node final') :
    final = final' := by
  induction h with
  | ended hnone =>
    cases h' with
    | ended _ | idle _ _ => rfl
    | step hsome _ _ => cases hnone.unique hsome
  | idle hfirst hzero =>
    cases h' with
    | ended _ | idle _ _ => rfl
    | step hsome hpos _ =>
      cases hfirst.unique hsome
      omega
  | step hfirst hpos _ ih =>
    cases h' with
    | ended hnone => cases hfirst.unique hnone
    | idle hsome hzero =>
      cases hfirst.unique hsome
      omega
    | step hsome _ hrest =>
      cases hfirst.unique hsome
      exact ih hrest

section

variable {ctx : Context} (hg : ctx.grammar.WellFormed)
include hg

/-- **A plain match is a match tree** of its clause: matching through an empty chart gives it. -/
theorem Plain.sound {id : ClauseId} {pos : Nat} {outcome : Outcome} (hpos : pos ≤ ctx.input.size)
    (h : Plain ctx id pos outcome) : outcome.Sound ctx id pos :=
  (h.run hg hpos (Session.Sound.start ctx) (Session.Transparent.start ctx) nofun).1

/-- The matches of a row stand one after the other. -/
theorem PlainRow.tiles : ∀ {elements : List ClauseId} {pos : Nat} {nodes : List Node},
    pos ≤ ctx.input.size → PlainRow ctx elements pos (some nodes) →
    Tiles pos nodes (pos + covered nodes) ∧ pos + covered nodes ≤ ctx.input.size
  | [], pos, nodes, hpos, ⟨fuel, hfuel⟩ => by
    cases hfuel
    exact ⟨rfl, hpos⟩
  | element :: rest, pos, nodes, hpos, ⟨fuel, hfuel⟩ => by
    rw [plainElements] at hfuel
    obtain ⟨outcome, houtcome, hfuel⟩ := Option.bind_eq_some_iff.1 hfuel
    cases outcome with
    | matched node =>
      obtain ⟨others, hothers, hnodes⟩ := Option.bind_eq_some_iff.1 hfuel
      obtain ⟨tail, rfl, rfl⟩ := Option.map_eq_some_iff.1 (Option.some.inj hnodes)
      have hnode := (Plain.sound hg hpos ⟨fuel, houtcome⟩) node rfl
      have hstop : node.stop = pos + node.len := by rw [Node.stop, hnode.pos_eq]
      have hle := hnode.stop_le
      rw [hstop] at hle
      obtain ⟨htiles, hwithin⟩ := PlainRow.tiles hle ⟨fuel, hothers⟩
      rw [covered_cons, ← Nat.add_assoc]
      refine ⟨⟨hnode.pos_eq, ?_⟩, hwithin⟩
      rw [hstop]
      exact htiles
    | _ => cases hfuel

end

/-! ## Lengths -/

namespace Node

variable (id : ClauseId) (node : Node)

/-- A lifted match starts where the match does. -/
theorem pos_lift : (node.lift id).pos = node.pos := rfl

/-- A lifted match is as long as the match. -/
theorem len_lift : (node.lift id).len = node.len := Nat.add_sub_cancel_left _ _

/-- A lifted match ends where the match does. -/
theorem stop_lift : (node.lift id).stop = node.stop := by rw [stop, stop, pos_lift, len_lift]

end Node

/-- The match of a step reaches from the start of the match of the rule to the end of the rest. -/
theorem Step.row_reaches {step : Step} {node : Node} {rest : List Node} {stop : Nat}
    (h : Tiles node.stop rest stop) :
    (step.row node rest).pos = node.pos ∧ (step.row node rest).stop = stop := by
  have htiles : Tiles node.pos (node.lift step.self :: rest) stop := by
    refine ⟨rfl, ?_⟩
    rw [Node.stop_lift]
    exact h
  rw [Step.row, Node.wrap_eq htiles (List.cons_ne_nil _ _)]
  exact ⟨rfl, Nat.add_sub_cancel' htiles.le⟩

/-- A step adds to a match of the rule what its rest covers. -/
theorem FirstStep.len_row {ctx : Context} (hg : ctx.grammar.WellFormed) {steps : List Step}
    {step : Step} {node : Node} {rest : List Node} (top : ClauseId)
    (hle : node.stop ≤ ctx.input.size) (h : FirstStep ctx steps node.stop (some (step, rest))) :
    ((step.row node rest).lift top).pos = node.pos ∧
      ((step.row node rest).lift top).len = node.len + covered rest ∧
      ((step.row node rest).lift top).stop ≤ ctx.input.size := by
  obtain ⟨htiles, hwithin⟩ := PlainRow.tiles hg hle h.mem.2
  obtain ⟨hpos, hstop⟩ := step.row_reaches htiles
  rw [Node.pos_lift, Node.stop_lift, Node.len_lift, hstop]
  refine ⟨hpos, ?_, hwithin⟩
  rw [Node.stop, hpos, Node.stop] at hstop
  omega

/-- A base matches from its position to somewhere within the input. -/
theorem FirstBase.fits {ctx : Context} (hg : ctx.grammar.WellFormed) {bases : List ClauseId}
    {pos : Nat} {base : ClauseId} {child : Node} (hpos : pos ≤ ctx.input.size)
    (h : FirstBase ctx bases pos (some (base, child))) :
    child.pos = pos ∧ child.stop ≤ ctx.input.size := by
  obtain ⟨-, outcome, hplain, hchild⟩ := h.mem
  have hsound := Plain.sound hg hpos hplain
  cases outcome with
  | matched node =>
    cases hchild
    exact ⟨(hsound _ rfl).pos_eq, (hsound _ rfl).stop_le⟩
  | mismatch | pending => cases hchild

/-! ## No plain outcome -/

namespace Grammar.LeftRecursive

/-- A step is not the body of its rule. -/
theorem id_ne_top {g : Grammar} {top : ClauseId} {steps : List Step} {bases : List ClauseId}
    (h : g.LeftRecursive top steps bases) {step : Step} (hstep : step ∈ steps) : step.id ≠ top := by
  intro heq
  have hseq := h.seq step hstep
  rw [heq, h.body] at hseq
  cases hseq

/-- A step is known by its sequence. -/
theorem step_eq {g : Grammar} {top : ClauseId} {steps : List Step} {bases : List ClauseId}
    (h : g.LeftRecursive top steps bases) {step other : Step} (hstep : step ∈ steps)
    (hother : other ∈ steps) (heq : other.id = step.id) : other = step := by
  have hseq := h.seq other hother
  rw [heq, h.seq step hstep] at hseq
  cases step
  cases other
  cases heq
  cases hseq
  rfl

variable {ctx : Context} {top : ClauseId} {steps : List Step} {bases : List ClauseId}
  (h : ctx.grammar.LeftRecursive top steps bases)
include h

/-- A step has no outcome if the rule has none. -/
theorem step_eq_none {fuel pos : Nat} (hpos : pos ≤ ctx.input.size)
    (htop : plainAtFuel ctx fuel top pos = none) {step : Step} (hstep : step ∈ steps) :
    plainAtFuel ctx (fuel + 2) step.id pos = none := by
  obtain ⟨name, hname⟩ := h.self step hstep
  have hself : plainAtFuel ctx (fuel + 1) step.self pos = none := by
    rw [plainAtFuel, if_neg (Nat.not_lt.2 hpos), hname]
    show (plainAtFuel ctx fuel top pos >>= _) = none
    rw [htop]
    rfl
  rw [plainAtFuel, if_neg (Nat.not_lt.2 hpos), h.seq step hstep]
  show (plainElements (plainAtFuel ctx (fuel + 1)) (step.self :: step.tail) pos >>= _) = none
  rw [plainElements, hself]
  rfl

/-- The rule has no outcome: its first step comes back to it. -/
theorem top_eq_none {pos : Nat} (hpos : pos ≤ ctx.input.size) :
    ∀ fuel, plainAtFuel ctx fuel top pos = none := by
  intro fuel
  induction fuel with
  | zero => rfl
  | succ fuel ih =>
    obtain ⟨step, rest, rfl⟩ := List.exists_cons_of_ne_nil h.steps_ne
    have hstep := h.step_eq_none hpos ih List.mem_cons_self
    refine plainAtFuel_eq_none (show fuel + 1 ≤ fuel + 3 by omega) ?_
    rw [plainAtFuel, if_neg (Nat.not_lt.2 hpos), h.body]
    show (plainFirst (plainAtFuel ctx (fuel + 2)) pos (step.id :: (rest.map Step.id ++ bases)) >>= _) =
      none
    rw [plainFirst, hstep]
    rfl

/-- **Neither the rule nor a step of it has a plain outcome**, at any position of the input. -/
theorem not_plain {pos : Nat} (hpos : pos ≤ ctx.input.size) :
    (∀ outcome, ¬Plain ctx top pos outcome) ∧
      ∀ step ∈ steps, ∀ outcome, ¬Plain ctx step.id pos outcome := by
  constructor
  · rintro outcome ⟨fuel, hfuel⟩
    rw [h.top_eq_none hpos fuel] at hfuel
    cases hfuel
  · rintro step hstep outcome ⟨fuel, hfuel⟩
    have hnone := h.step_eq_none hpos (h.top_eq_none hpos fuel) hstep
    rw [plainAtFuel_eq_none (Nat.le_add_right fuel 2) hnone] at hfuel
    cases hfuel

end Grammar.LeftRecursive
end Packrat
