import Packrat.Proofs.Derivation
import Packrat.Proofs.Lexemes

/-!
# Expressions that take or miss

Whether it is settled what an expression does at a position: it takes some of the input, or it does not
match. There is one lemma for each kind of expression, and one for growth. A repetition comes to an end
since its item takes input in every round, and so does the growth of a left-recursive rule.

* `Lands` — where an expression gets to, and what nodes it gives on the way.
* **`Settled`**, `SettledRow` — the expressions that take or miss.
* `Settled.seq`, `Settled.choice`, `Settled.star`, `Settled.plus`, … — each kind of expression.
* **`Settled.grown`** — the left-recursive rule.
-/

namespace Packrat

/-- Whether an expression got at least as far as some place, inside the input, and all its nodes have a
property. -/
structure Lands (ctx : Context) (P : Ast → Prop) (least stop : Nat) (asts : List Ast) : Prop where
  /-- It got so far. -/
  far : least ≤ stop
  /-- It got no further than the input. -/
  inside : stop ≤ ctx.input.size
  /-- The nodes have the property. -/
  all : ∀ ast ∈ asts, P ast

/-- **Whether an expression takes or misses** at a position. If it takes, it takes so many characters at
least and gives nodes with a property. -/
def Settled (ctx : Context) (rule : LeftRule) (P : Ast → Prop) (e : Expr) (least pos : Nat) : Prop :=
  (∃ stop asts, Takes ctx rule e pos stop asts ∧ Lands ctx P (pos + least) stop asts) ∨
    Misses ctx rule e pos

/-- Whether it does, and gives one node if it takes. -/
def SettledNode (ctx : Context) (rule : LeftRule) (P : Ast → Prop) (e : Expr) (pos : Nat) : Prop :=
  (∃ stop ast, Takes ctx rule e pos stop [ast] ∧ Lands ctx P (pos + 1) stop [ast]) ∨
    Misses ctx rule e pos

/-- Whether expressions one after the other do. -/
def SettledRow (ctx : Context) (rule : LeftRule) (P : Ast → Prop) (items : List Expr) (least pos : Nat) :
    Prop :=
  (∃ stop asts, TakesRow ctx rule items pos stop asts ∧ Lands ctx P (pos + least) stop asts) ∨
    MissesRow ctx rule items pos

/-- A text that stands at a position starts what is left. -/
theorem Context.exists_at {ctx : Context} {pos : Nat} {text : List Char}
    (h : startsAt ctx.input text pos = true) (hpos : pos ≤ ctx.input.size) :
    ∃ rest, ctx.At pos (text ++ rest) := by
  refine ⟨(ctx.input.toList.drop pos).drop text.length, hpos, ?_⟩
  have htake := take_drop_of_startsAt h
  conv => lhs; rw [← List.take_append_drop text.length (ctx.input.toList.drop pos), htake]

section rows

variable {ctx : Context} {rule : LeftRule} {P Q : Ast → Prop} {e item : Expr} {items : List Expr}
  {least fewer more pos middle stop : Nat} {asts others : List Ast}

/-- A weaker property, and not so far. -/
theorem Lands.mono (h : Lands ctx P least stop asts) (hP : ∀ ast, P ast → Q ast)
    (hle : fewer ≤ least) : Lands ctx Q fewer stop asts :=
  ⟨Nat.le_trans hle h.far, h.inside, fun ast hast => hP ast (h.all ast hast)⟩

/-- One stretch after another. -/
theorem Lands.append (h : Lands ctx P least middle asts) (h' : Lands ctx P (middle + more) stop others) :
    Lands ctx P (least + more) stop (asts ++ others) where
  far := by
    have hfar := h.far
    have hfar' := h'.far
    omega
  inside := h'.inside
  all := List.forall_mem_append.2 ⟨h.all, h'.all⟩

/-- One node is some nodes. -/
theorem SettledNode.settled (h : SettledNode ctx rule P e pos) : Settled ctx rule P e 1 pos := by
  rcases h with ⟨stop, ast, htakes, hlands⟩ | hmiss
  · exact .inl ⟨stop, [ast], htakes, hlands⟩
  · exact .inr hmiss

/-- A weaker property, and fewer characters. -/
theorem Settled.mono (h : Settled ctx rule P e least pos) (hP : ∀ ast, P ast → Q ast)
    (hle : fewer ≤ least) : Settled ctx rule Q e fewer pos := by
  rcases h with ⟨stop, asts, htakes, hlands⟩ | hmiss
  · exact .inl ⟨stop, asts, htakes, hlands.mono hP (Nat.add_le_add_left hle pos)⟩
  · exact .inr hmiss

/-- No expressions. -/
theorem SettledRow.nil (hpos : pos ≤ ctx.input.size) : SettledRow ctx rule P [] 0 pos :=
  .inl ⟨pos, [], TakesRow.nil, Nat.le_refl pos, hpos, nofun⟩

/-- One expression, and others after it wherever it gets to. -/
theorem SettledRow.cons (h : Settled ctx rule P e least pos)
    (hrest : ∀ {middle}, pos + least ≤ middle → middle ≤ ctx.input.size →
      SettledRow ctx rule P items more middle) :
    SettledRow ctx rule P (e :: items) (least + more) pos := by
  rcases h with ⟨middle, asts, htakes, hlands⟩ | hmiss
  · rcases hrest hlands.far hlands.inside with ⟨stop, others, hrow, hlands'⟩ | hmiss
    · rw [SettledRow, ← Nat.add_assoc]
      exact .inl ⟨stop, _, TakesRow.cons htakes hrow, hlands.append hlands'⟩
    · exact .inr (MissesRow.later htakes hmiss)
  · exact .inr (MissesRow.here hmiss)

/-- One expression. -/
theorem SettledRow.last (h : Settled ctx rule P e least pos) : SettledRow ctx rule P [e] least pos :=
  .cons h fun _ hend => .nil hend

/-- **An item that takes input wherever it matches** ends after some rounds. -/
theorem exists_takesMany {pos : Nat} (hpos : pos ≤ ctx.input.size)
    (h : ∀ {middle}, pos ≤ middle → middle ≤ ctx.input.size → Settled ctx rule P item 1 middle) :
    ∃ stop asts, TakesMany ctx rule item pos stop asts ∧ Lands ctx P pos stop asts := by
  rcases h (Nat.le_refl pos) hpos with ⟨middle, asts, htakes, hlands⟩ | hmiss
  · have hlt : pos < middle := hlands.far
    obtain ⟨stop, others, hmany, hlands'⟩ :=
      exists_takesMany hlands.inside fun hle => h (Nat.le_trans (Nat.le_of_lt hlt) hle)
    have hall : Lands ctx P (pos + 1) stop (asts ++ others) :=
      hlands.append (show Lands ctx P (middle + 0) stop others from hlands')
    exact ⟨stop, asts ++ others, TakesMany.cons htakes hlt hmany,
      hall.mono (fun _ h => h) (Nat.le_succ pos)⟩
  · exact ⟨pos, [], TakesMany.nil hpos hmiss, Nat.le_refl pos, hpos, nofun⟩
termination_by ctx.input.size - pos
decreasing_by
  have := hlands.inside
  omega

end rows

section kinds

variable {ctx : Context} {rule : LeftRule} {P Q : Ast → Prop} {name : String}
  {tails : List (List Expr)} {bases : List Expr} (hrule : rule.Follows ctx.grammar name tails bases)
  {e item : Expr} {items : List Expr} {least more pos : Nat}
include hrule

/-- A sequence. -/
theorem Settled.seq (hpos : pos ≤ ctx.input.size) (he : (Expr.seq items).startsWith name = false)
    (hle : least ≤ more) (h : SettledRow ctx rule P items more pos) :
    Settled ctx rule P (.seq items) least pos := by
  rcases h with ⟨stop, asts, htakes, hlands⟩ | hmiss
  · exact .inl ⟨stop, asts, Takes.seq hrule hpos he htakes,
      hlands.mono (fun _ h => h) (Nat.add_le_add_left hle pos)⟩
  · exact .inr (Misses.seq hrule he hmiss)

/-- A choice. -/
theorem Settled.choice (hpos : pos ≤ ctx.input.size) (he : (Expr.choice items).startsWith name = false)
    (h : ∀ e ∈ items, Settled ctx rule P e least pos) :
    Settled ctx rule P (.choice items) least pos := by
  rcases exists_first h with hmiss | ⟨before, e, after, rfl, hmiss, stop, asts, htakes, hlands⟩
  · exact .inr (Misses.choice hrule he hmiss)
  · exact .inl ⟨stop, asts, Takes.choice hrule hpos he ((TakesFirst.here htakes).skip hmiss), hlands⟩

/-- A repetition that need not match. -/
theorem Settled.star (hpos : pos ≤ ctx.input.size)
    (h : ∀ {middle}, pos ≤ middle → middle ≤ ctx.input.size → Settled ctx rule P item 1 middle) :
    Settled ctx rule P (.star item) 0 pos := by
  obtain ⟨stop, asts, hmany, hlands⟩ := exists_takesMany hpos h
  exact .inl ⟨stop, asts, Takes.star hrule hpos hmany, hlands⟩

/-- A repetition that has to match. -/
theorem Settled.plus (hpos : pos ≤ ctx.input.size)
    (h : ∀ {middle}, pos ≤ middle → middle ≤ ctx.input.size → Settled ctx rule P item 1 middle) :
    Settled ctx rule P (.plus item) 1 pos := by
  rcases h (Nat.le_refl pos) hpos with ⟨middle, asts, htakes, hlands⟩ | hmiss
  · have hlt : pos < middle := hlands.far
    obtain ⟨stop, others, hmany, hlands'⟩ :=
      exists_takesMany hlands.inside fun hle => h (Nat.le_trans (Nat.le_of_lt hlt) hle)
    have hall : Lands ctx P (pos + 1) stop (asts ++ others) :=
      hlands.append (show Lands ctx P (middle + 0) stop others from hlands')
    exact .inl ⟨stop, _, Takes.repeated hrule hpos (TakesMany.cons htakes hlt hmany) fun _ => hall.far,
      hall⟩
  · exact .inr (Misses.plus hrule hmiss)

/-- An option. -/
theorem Settled.optional (hpos : pos ≤ ctx.input.size) (h : Settled ctx rule P item least pos) :
    Settled ctx rule P (.optional item) 0 pos := by
  rcases h with ⟨stop, asts, htakes, hlands⟩ | hmiss
  · exact .inl ⟨stop, asts, Takes.optional hrule htakes,
      hlands.mono (fun _ h => h) (Nat.le_add_right pos least)⟩
  · exact .inl ⟨pos, [], Takes.absent hrule hpos hmiss, Nat.le_refl pos, hpos, nofun⟩

/-- A lookahead for what should not be there. -/
theorem Settled.notAhead (hpos : pos ≤ ctx.input.size) (h : Settled ctx rule Q item least pos) :
    Settled ctx rule P (.notAhead item) 0 pos := by
  rcases h with ⟨stop, asts, htakes, -⟩ | hmiss
  · exact .inr (Misses.notAhead hrule htakes)
  · exact .inl ⟨pos, [], Takes.notAhead hrule hpos hmiss, Nat.le_refl pos, hpos, nofun⟩

/-- A visible rule, whose node gets its property from those of the body. -/
theorem Settled.reference {other : String} {body : Expr} (hnames : ctx.grammar.Names other false body)
    (h : Settled ctx rule P body least pos)
    (hnode : ∀ stop asts, (∀ ast ∈ asts, P ast) → Q (.covering other pos stop asts)) :
    Settled ctx rule Q (.reference other) least pos := by
  rcases h with ⟨stop, asts, htakes, hlands⟩ | hmiss
  · exact .inl ⟨stop, _, Takes.reference hrule hnames htakes, hlands.far, hlands.inside,
      List.forall_mem_singleton.2 (hnode stop asts hlands.all)⟩
  · exact .inr (Misses.reference hrule hnames hmiss)

/-- A transparent rule. -/
theorem Settled.hidden {other : String} {body : Expr} (hnames : ctx.grammar.Names other true body)
    (h : Settled ctx rule P body least pos) : Settled ctx rule Q (.reference other) least pos := by
  rcases h with ⟨stop, asts, htakes, hlands⟩ | hmiss
  · exact .inl ⟨stop, [], Takes.hidden hrule hnames htakes, hlands.far, hlands.inside, nofun⟩
  · exact .inr (Misses.reference hrule hnames hmiss)

/-- A text. -/
theorem Settled.literal {text : List Char} (hpos : pos ≤ ctx.input.size)
    (hP : ∀ len, P (.terminal pos len)) : Settled ctx rule P (.literal text) text.length pos := by
  cases hstarts : startsAt ctx.input text pos with
  | true =>
    obtain ⟨rest, hat⟩ := Context.exists_at hstarts hpos
    exact .inl ⟨_, _, Takes.literal hrule hat, Nat.le_refl _, hat.skip.le,
      List.forall_mem_singleton.2 (hP _)⟩
  | false => exact .inr (Misses.literal hrule hstarts)

/-- One character. -/
theorem Settled.one (he : e.isOne = true) (hpos : pos ≤ ctx.input.size)
    (hP : ∀ len, P (.terminal pos len)) : Settled ctx rule P e 1 pos := by
  have hat : ctx.At pos (ctx.input.toList.drop pos) := ⟨hpos, rfl⟩
  cases haccepts : (ctx.input.toList.drop pos).head?.any e.accepts with
  | true =>
    obtain ⟨c, rest, htext, hc⟩ := exists_of_head?_any haccepts
    rw [htext] at hat
    exact .inl ⟨pos + 1, _, Takes.one hrule he hat hc, Nat.le_refl _, hat.next.le,
      List.forall_mem_singleton.2 (hP 1)⟩
  | false => exact .inr (Misses.one hrule he hat haccepts)

/-- One character of several. -/
theorem Settled.anyOf (hitems : items.all Expr.isOne = true) (hpos : pos ≤ ctx.input.size)
    (hP : ∀ len, P (.terminal pos len)) : Settled ctx rule P (.choice items) 1 pos :=
  .choice hrule hpos (startsWith_choice_one hitems) fun e he =>
    .one hrule (List.all_eq_true.1 hitems e he) hpos hP

/-- **A left-recursive rule** whose bases and whose tails take input wherever they match. The growth
ends since every step takes more of the input. -/
theorem Settled.grown (hpos : pos ≤ ctx.input.size) (hbases : ∀ e ∈ bases, Settled ctx rule P e 1 pos)
    (htails : ∀ tail ∈ tails, ∀ {middle}, pos + 1 ≤ middle → middle ≤ ctx.input.size →
      SettledRow ctx rule P tail 1 middle)
    (hnode : ∀ stop asts, (∀ ast ∈ asts, P ast) → P (.covering name pos stop asts)) :
    Settled ctx rule P (.reference name) 1 pos := by
  -- From any match on growth leads to a last one.
  have hgrows : ∀ {left middle asts}, ctx.input.size - middle = left →
      Reaches ctx rule pos middle asts → Lands ctx P (pos + 1) middle asts →
      Settled ctx rule P (.reference name) 1 pos := by
    intro left
    induction left using Nat.strong_induction_on with
    | _ left ih =>
      intro middle asts hleft hreaches hlands
      have hsettled := fun tail htail => htails tail htail hlands.far hlands.inside
      rcases exists_first hsettled with hmiss | ⟨before, tail, after, hsplit, hmiss, htail⟩
      · exact .inl ⟨middle, _, hreaches.takes hrule hmiss, hlands.far, hlands.inside,
          List.forall_mem_singleton.2 (hnode middle asts hlands.all)⟩
      · obtain ⟨stop, others, hrow, hlands'⟩ := htail
        have hfar := hlands.far
        have hlt : middle < stop := hlands'.far
        have hinside := hlands'.inside
        refine ih (ctx.input.size - stop) (by omega) rfl (hreaches.step hrule hsplit hmiss hrow hlt) ?_
        exact ⟨by omega, hinside,
          List.forall_mem_cons.2 ⟨hnode middle asts hlands.all, hlands'.all⟩⟩
  rcases exists_first hbases with hmiss | ⟨before, e, after, rfl, hmiss, middle, asts, htakes, hlands⟩
  · exact .inr (Misses.baseless hrule hmiss)
  · exact hgrows rfl (Reaches.base hrule hpos ((TakesFirst.here htakes).skip hmiss)) hlands

end kinds

end Packrat
