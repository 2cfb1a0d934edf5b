import Mathlib.Data.Bool.AllAny
import Packrat.Proofs.Recognition
import Packrat.Proofs.Texts
import Packrat.Spec.Reader

/-!
# The words of grammar notation

What the rules of the notation for blanks, names and quoted characters take of a text.

* `isLegible`, `isIdentifier` — the characters that can be written and read back, and the names.
* `Escape.Stands`, `Escape.Bars` — a character in its written form, and a text that starts with none.
* `Takes.one`, `Misses.one`, `Takes.anyOf`, `Misses.anyOf` — single characters.
* `Covers` — an expression whose nodes cover what it takes.
* `Spec.Notation` — an input that is matched with the grammar of the notation.
* **`Notation.takes_blank`**, **`Notation.takes_identifier`**, **`Notation.covers_character`** — blanks,
  names and quoted characters.
-/

namespace Packrat

/-! ## Characters and names -/

/-- Whether a character can be written and read back. -/
def isLegible (c : Char) : Bool :=
  c == '\n' || c == '\r' || c == '\t' || (0x20 ≤ c.toNat && c.toNat ≤ 0x7e)

/-- Whether a name can start with a character. -/
def isNameStart (c : Char) : Bool :=
  (CharRange.mk 'a' 'z').contains c || (CharRange.mk 'A' 'Z').contains c || c == '_'

/-- Whether a name can go on with a character. -/
def isNamePart (c : Char) : Bool := isNameStart c || (CharRange.mk '0' '9').contains c

/-- Whether a text is a name. -/
def isIdentifier : List Char → Bool
  | [] => false
  | c :: rest => isNameStart c && rest.all isNamePart

/-- An identifier starts as a name. -/
theorem exists_of_isIdentifier {text : List Char} (h : isIdentifier text = true) :
    ∃ c more, text = c :: more ∧ isNameStart c = true := by
  cases text with
  | nil => cases h
  | cons c more =>
    rw [isIdentifier, Bool.and_eq_true] at h
    exact ⟨c, more, rfl, h.1⟩

/-- No name starts with a mark. -/
theorem ne_mark_of_isNameStart {c : Char} (h : isNameStart c = true) : c ≠ '~' := by
  rintro rfl
  exact absurd h (by decide)

namespace Escape

/-- The characters after the backslash of an escape. -/
def codes : List Char := ['n', 'r', 't', '\\', '\x22', '\x27', '[', ']', '-']

/-- Whether a text stands for a character where some others cannot stand for themselves. -/
inductive Stands (stops : List Char) (c : Char) : List Char → Prop where
  | plain : c ≠ '\\' → c ∉ stops → Stands stops c [c]
  | escaped {code : Char} : code ∈ codes → resolve code = c → Stands stops c ['\\', code]

namespace Stands

variable {stops : List Char} {c : Char} {text : List Char}

/-- Fewer characters that cannot stand for themselves. -/
theorem mono {fewer : List Char} (h : Stands stops c text) (hsub : ∀ d ∈ fewer, d ∈ stops) :
    Stands fewer c text := by
  cases h with
  | plain hne hmem => exact .plain hne fun hc => hmem (hsub c hc)
  | escaped hcode hresolve => exact .escaped hcode hresolve

/-- The written form is not empty. -/
theorem ne_nil (h : Stands stops c text) : text ≠ [] := by
  cases h <;> exact List.cons_ne_nil _ _

/-- The character is read back. -/
theorem decodeChar?_eq (h : Stands stops c text) : decodeChar? text = some c := by
  cases h with
  | plain => rfl
  | escaped _ hcode => simp [decodeChar?, hcode]

/-- The character is read back before others. -/
theorem decode_append (h : Stands stops c text) (rest : List Char) :
    decode (text ++ rest) = c :: decode rest := by
  cases h with
  | plain hne =>
    cases rest with
    | nil => rfl
    | cons d rest => simp [decode, hne]
  | escaped _ hcode => simp [decode, hcode]

end Stands

/-- Whether a text starts with no written form of a character, where some others cannot stand for
themselves. -/
inductive Bars (stops : List Char) : List Char → Prop where
  | nil : Bars stops []
  | stop {c : Char} {rest : List Char} : c ≠ '\\' → c ∈ stops → Bars stops (c :: rest)
  | escape {rest : List Char} : rest.head?.any (· ∈ codes) = false → Bars stops ('\\' :: rest)

/-- **Every text starts with the written form of a character, or with none.** -/
theorem exists_stands_or_bars (stops : List Char) : ∀ text : List Char,
    (∃ c written rest, text = written ++ rest ∧ Stands stops c written) ∨ Bars stops text
  | [] => .inr .nil
  | c :: rest => by
    by_cases hbackslash : c = '\\'
    · subst hbackslash
      cases hcode : rest.head?.any (· ∈ codes) with
      | false => exact .inr (.escape hcode)
      | true =>
        cases rest with
        | nil => cases hcode
        | cons code rest => exact .inl ⟨_, _, rest, rfl, .escaped (by simpa using hcode) rfl⟩
    · by_cases hstop : c ∈ stops
      · exact .inr (.stop hbackslash hstop)
      · exact .inl ⟨c, [c], rest, rfl, .plain hbackslash hstop⟩

/-- How a character is written. -/
theorem stands_encodeChar {c : Char} (h : isLegible c = true) :
    Stands ['\x22', '\x27'] c (encodeChar c) := by
  unfold encodeChar
  split <;> rename_i hbackslash
  · exact .escaped (by decide) hbackslash.symm
  split <;> rename_i hdouble
  · exact .escaped (by decide) hdouble.symm
  split <;> rename_i hsingle
  · exact .escaped (by decide) hsingle.symm
  split <;> rename_i hn
  · exact .escaped (by decide) hn.symm
  split <;> rename_i hr
  · exact .escaped (by decide) hr.symm
  split <;> rename_i ht
  · exact .escaped (by decide) ht.symm
  have hrange : 0x20 ≤ c.toNat ∧ c.toNat ≤ 0x7e := by simpa [isLegible, hn, hr, ht] using h
  have hb : c ≠ '\x08' := by
    rintro rfl
    exact absurd hrange (by decide)
  rw [if_neg hb, if_neg (by omega), if_neg (by omega)]
  exact .plain hbackslash (by simp [hdouble, hsingle])

/-- How a member of a class is written. -/
theorem stands_renderMember {c : Char} (h : isLegible c = true) :
    Stands [']', '-'] c (CharRange.renderMember c) := by
  unfold CharRange.renderMember
  split <;> rename_i hspecial
  · rcases hspecial with rfl | rfl | rfl <;> exact .escaped (by decide) rfl
  · have hplain := stands_encodeChar h
    revert hplain
    generalize encodeChar c = text
    rintro (⟨hne, -⟩ | ⟨hcode, hresolve⟩)
    · exact .plain hne (by simp_all)
    · exact .escaped hcode hresolve

end Escape

/-! ## The text that is left -/

/-- A text whose first character has a property. -/
theorem exists_of_head?_any {text : List Char} {p : Char → Bool} (h : text.head?.any p = true) :
    ∃ c more, text = c :: more ∧ p c = true := by
  cases text with
  | nil => cases h
  | cons c more => exact ⟨c, more, rfl, h⟩

/-- After the first of two quotes the text between them is left. -/
theorem Context.At.inside {ctx : Context} {pos : Nat} {text rest : List Char} {c last : Char}
    (h : ctx.At pos (c :: (text ++ [last]) ++ rest)) :
    ctx.At (pos + 1) (text ++ last :: rest) := by
  have hcons : ctx.At pos (c :: (text ++ last :: rest)) := by simpa using h
  exact hcons.next

/-! ## Single characters -/

/-- Whether an expression matches one character and nothing else. -/
def Expr.isOne : Expr → Bool
  | .literal [_] | .char _ | .charClass _ _ | .anyChar => true
  | _ => false

/-- Whether an expression of one character matches it. -/
def Expr.accepts : Expr → Char → Bool
  | .literal [d], c => c == d
  | .char d, c => c == d
  | .charClass ranges inverted, c => classAccepts ranges inverted c
  | .anyChar, _ => true
  | _, _ => false

section terminals

variable {ctx : Context} {rule : LeftRule} {name : String} {tails : List (List Expr)}
  {bases : List Expr} (hrule : rule.Follows ctx.grammar name tails bases) {e : Expr}
  {items : List Expr} {pos : Nat} {c : Char} {text rest : List Char}
include hrule

/-- A text. -/
theorem Takes.literal (h : ctx.At pos (text ++ rest)) :
    Takes ctx rule (.literal text) pos (pos + text.length) [.terminal pos text.length] :=
  Takes.of_clause hrule h.le rfl fun id hid =>
    ⟨_, 0, .terminal id pos text.length, hid, by simp [plainClause, h.startsAt], .leaf hid rfl⟩

/-- Another text. -/
theorem Misses.literal (h : startsAt ctx.input text pos = false) :
    Misses ctx rule (.literal text) pos :=
  Misses.of_clause hrule rfl fun _ id hid => ⟨_, 0, hid, by simp [plainClause, h]⟩

omit hrule in
/-- What an expression of one character gives. -/
theorem one_eq (he : e.isOne = true) (h : ctx.At pos text) {id : ClauseId}
    (hid : ctx.grammar.Denotes e id) :
    ∃ clause, ctx.grammar.clause? id = some clause ∧ clause.isTerminal = true ∧ ∀ matcher,
      plainClause ctx matcher 0 id clause pos =
        some (if text.head?.any e.accepts then .matched (.terminal id pos 1) else .mismatch) := by
  have hchar := h.getElem?_eq
  cases e with
  | literal characters =>
    obtain ⟨d, rfl⟩ : ∃ d, characters = [d] := by
      unfold Expr.isOne at he
      split at he <;> simp_all
    refine ⟨_, hid, rfl, fun matcher => ?_⟩
    cases text <;> simp_all [plainClause, startsAt, Expr.accepts]
  | char d | charClass ranges inverted | anyChar =>
    refine ⟨_, hid, rfl, fun matcher => ?_⟩
    rw [plainClause, evaluateChar, hchar]
    rfl
  | _ => cases he

/-- One character. -/
theorem Takes.one (he : e.isOne = true) (h : ctx.At pos (c :: rest)) (hc : e.accepts c = true) :
    Takes ctx rule e pos (pos + 1) [.terminal pos 1] := by
  refine Takes.of_clause hrule h.le (by cases e <;> first | rfl | cases he) fun id hid => ?_
  obtain ⟨clause, hclause, hterminal, hplain⟩ := one_eq he h hid
  exact ⟨clause, 0, .terminal id pos 1, hclause, by simp [hplain, hc], .leaf hclause hterminal⟩

/-- Another character, or none. -/
theorem Misses.one (he : e.isOne = true) (h : ctx.At pos text)
    (hc : text.head?.any e.accepts = false) : Misses ctx rule e pos := by
  refine Misses.of_clause hrule (by cases e <;> first | rfl | cases he) fun _ id hid => ?_
  obtain ⟨clause, hclause, -, hplain⟩ := one_eq he h hid
  exact ⟨clause, 0, hclause, by simp [hplain, hc]⟩

/-- A text of one character that is not there. -/
theorem Misses.other {d : Char} (h : ctx.At pos text) (hd : text.head? ≠ some d) :
    Misses ctx rule (.literal [d]) pos := by
  refine Misses.one hrule rfl h ((Option.any_eq_false _ _).2 fun c hc => beq_eq_false_iff_ne.2 ?_)
  rintro rfl
  exact hd hc

omit hrule in
/-- A choice of one character does not start with the rule. -/
theorem startsWith_choice_one (hitems : items.all Expr.isOne = true) :
    (Expr.choice items).startsWith name = false := by
  cases items with
  | nil => rfl
  | cons e items =>
    cases e with
    | seq _ => simp [Expr.isOne] at hitems
    | _ => rfl

omit hrule in
/-- The characters that a choice between them matches. -/
theorem any_accepts_oneOf (chars : List Char) (c : Char) :
    (chars.map Expr.char).any (·.accepts c) = decide (c ∈ chars) := by
  simp [Expr.accepts, List.any_map, Function.comp_def, List.any_beq]

/-- One character of several. -/
theorem Takes.anyOf (hitems : items.all Expr.isOne = true) (h : ctx.At pos (c :: rest))
    (hc : items.any (·.accepts c) = true) :
    Takes ctx rule (.choice items) pos (pos + 1) [.terminal pos 1] := by
  refine Takes.choice hrule h.le (startsWith_choice_one hitems) ?_
  induction items with
  | nil => cases hc
  | cons e items ih =>
    rw [List.all_cons, Bool.and_eq_true] at hitems
    by_cases he : e.accepts c = true
    · exact TakesFirst.here (Takes.one hrule hitems.1 h he)
    · refine TakesFirst.later (Misses.one hrule hitems.1 h (by simpa using he)) (ih hitems.2 ?_)
      simpa [he] using hc

/-- None of several characters. -/
theorem Misses.anyOf (hitems : items.all Expr.isOne = true) (h : ctx.At pos text)
    (hc : text.head?.any (fun c => items.any (·.accepts c)) = false) :
    Misses ctx rule (.choice items) pos := by
  refine Misses.choice hrule (startsWith_choice_one hitems) fun e he => ?_
  refine Misses.one hrule (List.all_eq_true.1 hitems e he) h ?_
  refine (Option.any_eq_false _ _).2 fun c hhead => ?_
  simpa using List.any_eq_false.1 ((Option.any_eq_false _ _).1 hc c hhead) e he

end terminals

/-! ## Nodes of words -/

namespace Ast

/-- Whether nodes of a syntax tree stand one after the other, from one position to another. -/
def Tile : Nat → List Ast → Nat → Prop
  | start, [], stop => start = stop
  | start, ast :: rest, stop => ast.pos = start ∧ Tile (start + ast.len) rest stop

/-- One row of nodes after another. -/
theorem Tile.append : ∀ {asts others : List Ast} {start middle stop : Nat},
    Tile start asts middle → Tile middle others stop → Tile start (asts ++ others) stop
  | [], _, _, _, _, h, h' => by
    rw [show _ = _ from h]
    exact h'
  | _ :: _, _, _, _, _, ⟨hpos, hrest⟩, h' => ⟨hpos, hrest.append h'⟩

/-- Where the last node of a row ends. -/
theorem Tile.getLast_stop : ∀ {asts : List Ast} {start stop : Nat}, Tile start asts stop →
    ∀ {last : Ast}, asts.getLast? = some last → last.pos + last.len = stop
  | [ast], _, _, ⟨hpos, hstop⟩, last, hlast => by
    obtain rfl : ast = last := Option.some.inj hlast
    rw [hpos]
    exact hstop
  | _ :: second :: rest, _, _, h, _, hlast => by
    rw [List.getLast?_cons_cons] at hlast
    exact getLast_stop h.2 hlast

/-- The node of a rule whose children cover its match. -/
theorem Tile.covering_eq {label : String} {asts : List Ast} {pos stop : Nat} (h : Tile pos asts stop) :
    covering label pos stop asts = ⟨label, pos, stop - pos, none, asts⟩ := by
  cases asts with
  | nil => rfl
  | cons ast rest =>
    obtain ⟨last, hlast, hspanning⟩ := exists_spanning?_cons label ast rest
    rw [covering, hspanning, Option.getD_some, h.getLast_stop hlast, h.1]

end Ast

/-- Whether an expression takes the input and gives nodes that cover what it takes. -/
def Covers (ctx : Context) (rule : LeftRule) (e : Expr) (pos stop : Nat) : Prop :=
  ∃ asts, Takes ctx rule e pos stop asts ∧ Ast.Tile pos asts stop

/-- Whether expressions one after the other do. -/
def CoversRow (ctx : Context) (rule : LeftRule) (items : List Expr) (pos stop : Nat) : Prop :=
  ∃ asts, TakesRow ctx rule items pos stop asts ∧ Ast.Tile pos asts stop

/-- Whether an expression does as often as it matches. -/
def CoversMany (ctx : Context) (rule : LeftRule) (item : Expr) (pos stop : Nat) : Prop :=
  ∃ asts, TakesMany ctx rule item pos stop asts ∧ Ast.Tile pos asts stop

section covers

variable {ctx : Context} {rule : LeftRule} {e item : Expr} {items : List Expr}
  {pos middle stop : Nat}

/-- No expressions. -/
theorem CoversRow.nil : CoversRow ctx rule [] pos pos := ⟨[], TakesRow.nil, rfl⟩

/-- One expression, and others after it. -/
theorem CoversRow.cons (h : Covers ctx rule e pos middle)
    (hrest : CoversRow ctx rule items middle stop) : CoversRow ctx rule (e :: items) pos stop := by
  obtain ⟨asts, htakes, htile⟩ := h
  obtain ⟨others, hothers, htiles⟩ := hrest
  exact ⟨asts ++ others, TakesRow.cons htakes hothers, htile.append htiles⟩

/-- A repetition takes a text piece by piece. -/
theorem coversMany_pieces {α : Type} {f : α → List Char} {rest : List Char}
    (hend : ∀ pos, ctx.At pos rest → Misses ctx rule item pos) :
    ∀ {pieces : List α} {pos : Nat},
    (∀ a ∈ pieces, f a ≠ [] ∧ ∀ pos text, ctx.At pos (f a ++ text) →
      Covers ctx rule item pos (pos + (f a).length)) →
    ctx.At pos (pieces.flatMap f ++ rest) →
    CoversMany ctx rule item pos (pos + (pieces.flatMap f).length)
  | [], pos, _, h => ⟨[], TakesMany.nil h.le (hend pos h), rfl⟩
  | a :: pieces, pos, hpieces, h => by
    obtain ⟨⟨hne, hfirst⟩, hrest⟩ := List.forall_mem_cons.1 hpieces
    rw [List.flatMap_cons, List.append_assoc] at h
    obtain ⟨asts, htakes, htile⟩ := hfirst pos _ h
    obtain ⟨others, hmany, htiles⟩ := coversMany_pieces hend hrest h.skip
    have hlt : pos < pos + (f a).length := Nat.lt_add_of_pos_right (List.length_pos_of_ne_nil hne)
    rw [List.flatMap_cons, List.length_append, ← Nat.add_assoc]
    exact ⟨asts ++ others, TakesMany.cons htakes hlt hmany, htile.append htiles⟩

variable {name : String} {tails : List (List Expr)} {bases : List Expr}
  (hrule : rule.Follows ctx.grammar name tails bases)
include hrule

/-- A sequence. -/
theorem Covers.seq (hpos : pos ≤ ctx.input.size) (he : (Expr.seq items).startsWith name = false)
    (h : CoversRow ctx rule items pos stop) : Covers ctx rule (.seq items) pos stop := by
  obtain ⟨asts, htakes, htile⟩ := h
  exact ⟨asts, Takes.seq hrule hpos he htakes, htile⟩

/-- A repetition. -/
theorem Covers.star (hpos : pos ≤ ctx.input.size) (h : CoversMany ctx rule item pos stop) :
    Covers ctx rule (.star item) pos stop := by
  obtain ⟨asts, htakes, htile⟩ := h
  exact ⟨asts, Takes.star hrule hpos htakes, htile⟩

/-- One character. -/
theorem Covers.one {c : Char} {rest : List Char} (he : e.isOne = true) (h : ctx.At pos (c :: rest))
    (hc : e.accepts c = true) : Covers ctx rule e pos (pos + 1) :=
  ⟨[.terminal pos 1], Takes.one hrule he h hc, rfl, rfl⟩

/-- One character of several. -/
theorem Covers.anyOf {c : Char} {rest : List Char} (hitems : items.all Expr.isOne = true)
    (h : ctx.At pos (c :: rest)) (hc : items.any (·.accepts c) = true) :
    Covers ctx rule (.choice items) pos (pos + 1) :=
  ⟨[.terminal pos 1], Takes.anyOf hrule hitems h hc, rfl, rfl⟩

/-- A rule gives one node over the nodes of its body. -/
theorem Covers.word {other : String} {body : Expr} (hnames : ctx.grammar.Names other false body)
    (h : Covers ctx rule body pos stop) :
    ∃ asts, Takes ctx rule (.reference other) pos stop [⟨other, pos, stop - pos, none, asts⟩] := by
  obtain ⟨asts, htakes, htile⟩ := h
  refine ⟨asts, ?_⟩
  rw [← htile.covering_eq]
  exact Takes.reference hrule hnames htakes

/-- A rule whose body is covered. -/
theorem Covers.reference {other : String} {body : Expr} (hnames : ctx.grammar.Names other false body)
    (h : Covers ctx rule body pos stop) (hle : pos ≤ stop) :
    Covers ctx rule (.reference other) pos stop := by
  obtain ⟨asts, htakes⟩ := h.word hrule hnames
  exact ⟨_, htakes, rfl, Nat.add_sub_cancel' hle⟩

end covers

namespace Spec

/-! ## The grammar of the notation -/

/-- Whether an input is matched with the grammar of the notation, of which the one left-recursive rule
is that of the operators after an operand. -/
structure Notation (ctx : Context) (rule : LeftRule) : Prop where
  /-- The grammar is that of the notation. -/
  built : notationGrammar = .ok ctx.grammar
  /-- The left-recursive rule. -/
  suffix : rule.Follows ctx.grammar "Suffix" [[ws, .lit "*"], [ws, .lit "+"], [ws, .lit "?"]]
    [.reference "Primary"]

/-- The unmarked names of the notation stand for the bodies of its definitions. -/
theorem visible_names {g : Grammar} (hg : notationGrammar = .ok g) (i : Nat) {name : String}
    {body : Expr} (hi : definitions[i]? = some ⟨name, body⟩) (hname : unmarked name = name)
    (hmark : isMarked name = false) : g.Names name false body := by
  have hnames := build_names hg (List.mem_of_getElem? hi) (by rw [hname, hname])
  rwa [hname, hmark] at hnames

/-- The grammar of the notation can be built, and has its left-recursive rule. -/
theorem exists_notation :
    ∃ g, notationGrammar = .ok g ∧ ∀ input, ∃ rule, Notation ⟨g, input⟩ rule := by
  have hsome : notationGrammar.toOption.isSome = true := by decide +kernel
  cases hg : notationGrammar with
  | error e =>
    rw [hg] at hsome
    cases hsome
  | ok g =>
    refine ⟨g, rfl, fun input => ?_⟩
    have hsuffix : g.Names "Suffix" false (.choice
        ([[ws, .lit "*"], [ws, .lit "+"], [ws, .lit "?"]].map
          (fun tail => .seq (.reference "Suffix" :: tail)) ++ [.reference "Primary"])) :=
      visible_names hg 6 rfl rfl rfl
    obtain ⟨rule, hrule⟩ := hsuffix.exists_follows (List.cons_ne_nil _ _) (by simp [Expr.startsWith])
    exact ⟨rule, hg, hrule⟩

section words

variable {ctx : Context} {rule : LeftRule} (hn : Notation ctx rule) {pos : Nat} {c : Char}
  {text rest : List Char}
include hn

/-! ## Blanks -/

/-- Whether a text starts with a blank or a comment. -/
def startsBlank (text : List Char) : Bool := text.head?.any (· ∈ [' ', '\t', '\n', '\r', '#'])

/-- Blanks are transparent. -/
theorem Notation.blanks : ctx.grammar.Names "WS" true
    (.star (.choice [.oneOf [' ', '\t', '\n', '\r'], .reference "Comment"])) := by
  have hmem : ⟨"~WS", .star (.choice [.oneOf [' ', '\t', '\n', '\r'], .reference "Comment"])⟩ ∈
      definitions := List.mem_of_getElem? (show definitions[17]? = some _ from rfl)
  exact build_names hn.built hmem rfl

/-- Blanks end where no blank and no comment starts. -/
theorem Notation.misses_blank (h : ctx.At pos text) (htext : startsBlank text = false) :
    Misses ctx rule (.choice [.oneOf [' ', '\t', '\n', '\r'], .reference "Comment"]) pos := by
  have hrule := hn.suffix
  have hnone : ∀ c, text.head? = some c → c ∉ [' ', '\t', '\n', '\r', '#'] := by
    simpa [startsBlank, Option.any_eq_false] using htext
  refine Misses.choice hrule rfl (List.forall_mem_cons.2 ⟨?_, List.forall_mem_singleton.2 ?_⟩)
  · refine Misses.anyOf hrule rfl h ((Option.any_eq_false _ _).2 fun c hc => ?_)
    rw [any_accepts_oneOf, decide_eq_false_iff_not]
    exact fun hmem => hnone c hc (List.mem_append_left ['#'] hmem)
  · refine Misses.reference hrule (visible_names hn.built 18 rfl rfl rfl) (Misses.seq hrule rfl ?_)
    exact MissesRow.here (Misses.other hrule h fun hc => hnone '#' hc (by decide))

/-- There need not be a blank. -/
theorem Notation.takes_no_blank (h : ctx.At pos text) (htext : startsBlank text = false) :
    Takes ctx rule ws pos pos [] :=
  Takes.hidden hn.suffix hn.blanks
    (Takes.star hn.suffix h.le (TakesMany.nil h.le (hn.misses_blank h htext)))

/-- One blank. -/
theorem Notation.takes_blank (h : ctx.At pos (c :: text)) (hc : c ∈ [' ', '\t', '\n', '\r'])
    (htext : startsBlank text = false) : Takes ctx rule ws pos (pos + 1) [] := by
  have hrule := hn.suffix
  have hblank : Takes ctx rule (.choice [.oneOf [' ', '\t', '\n', '\r'], .reference "Comment"]) pos
      (pos + 1) [.terminal pos 1] := by
    refine Takes.choice hrule h.le rfl (TakesFirst.here (Takes.anyOf hrule rfl h ?_))
    rwa [any_accepts_oneOf, decide_eq_true_eq]
  have hend := TakesMany.nil h.next.le (hn.misses_blank h.next htext)
  have hmany := TakesMany.cons hblank (Nat.lt_succ_self pos) hend
  exact Takes.hidden hrule hn.blanks (Takes.star hrule h.le hmany)

/-! ## Names -/

omit hn in
/-- The characters with which a name starts. -/
theorem any_accepts_nameStart (c : Char) :
    [Expr.range 'a' 'z', .range 'A' 'Z', .char '_'].any (·.accepts c) = isNameStart c := by
  simp [isNameStart, Expr.range, Expr.accepts, classAccepts, Bool.or_assoc]

omit hn in
/-- The characters with which a name goes on. -/
theorem any_accepts_namePart (c : Char) :
    [Expr.range 'a' 'z', .range 'A' 'Z', .range '0' '9', .char '_'].any (·.accepts c) =
      isNamePart c := by
  simp only [isNamePart, isNameStart, Expr.range, Expr.accepts, classAccepts, List.any_cons,
    List.any_nil, Bool.or_false, Bool.bne_false, Bool.or_assoc]
  rw [Bool.or_comm (c == '_')]

/-- A name. -/
theorem Notation.takes_identifier (htext : isIdentifier text = true) (h : ctx.At pos (text ++ rest))
    (hrest : rest.head?.any isNamePart = false) :
    ∃ asts, Takes ctx rule (.reference "Identifier") pos (pos + text.length)
      [⟨"Identifier", pos, text.length, none, asts⟩] := by
  have hrule := hn.suffix
  cases text with
  | nil => cases htext
  | cons c text =>
    rw [isIdentifier, Bool.and_eq_true, List.all_eq_true] at htext
    have hfirst : Covers ctx rule (.choice [.range 'a' 'z', .range 'A' 'Z', .char '_']) pos (pos + 1) :=
      .anyOf hrule rfl h (by rw [any_accepts_nameStart]; exact htext.1)
    have hmore : CoversMany ctx rule
        (.choice [.range 'a' 'z', .range 'A' 'Z', .range '0' '9', .char '_'])
        (pos + 1) (pos + 1 + (text.flatMap fun d => [d]).length) := by
      refine coversMany_pieces (fun place hat => ?_) (fun d hd => ⟨List.cons_ne_nil d [], ?_⟩)
        (by simpa using h.next)
      · exact Misses.anyOf hrule rfl hat (by simpa only [any_accepts_namePart] using hrest)
      · intro place others hat
        exact .anyOf hrule rfl hat (by rw [any_accepts_namePart]; exact htext.2 d hd)
    have hbody := Covers.seq hrule h.le rfl
      (.cons hfirst (.cons (.star hrule h.next.le hmore) .nil))
    obtain ⟨asts, htakes⟩ := hbody.word hrule (visible_names hn.built 9 rfl rfl rfl)
    have hlength : pos + 1 + (text.flatMap fun d => [d]).length = pos + (c :: text).length := by
      simp [Nat.add_assoc, Nat.add_comm 1]
    rw [hlength, Nat.add_sub_cancel_left] at htakes
    exact ⟨asts, htakes⟩

/-! ## Quoted characters -/

/-- An escape. -/
theorem Notation.covers_escape {code : Char} (h : ctx.At pos ('\\' :: code :: rest))
    (hcode : code ∈ Escape.codes) : Covers ctx rule (.reference "EscapeSequence") pos (pos + 2) := by
  have hrule := hn.suffix
  have hbackslash : Covers ctx rule (.lit "\\") pos (pos + 1) := .one hrule rfl h rfl
  have hcodes : Covers ctx rule (.oneOf Escape.codes) (pos + 1) (pos + 2) := by
    refine .anyOf hrule rfl h.next ?_
    rwa [any_accepts_oneOf, decide_eq_true_eq]
  have hbody := Covers.seq hrule h.le rfl (.cons hbackslash (.cons hcodes .nil))
  exact hbody.reference hrule (visible_names hn.built 12 rfl rfl rfl) (Nat.le_add_right pos 2)

/-- No escape without a backslash. -/
theorem Notation.misses_escape (h : ctx.At pos text) (htext : text.head? ≠ some '\\') :
    Misses ctx rule (.reference "EscapeSequence") pos := by
  have hrule := hn.suffix
  refine Misses.reference hrule (visible_names hn.built 12 rfl rfl rfl) (Misses.seq hrule rfl ?_)
  exact MissesRow.here (Misses.other hrule h htext)

/-- No escape with what is no code. -/
theorem Notation.misses_code (h : ctx.At pos ('\\' :: rest))
    (hrest : rest.head?.any (· ∈ Escape.codes) = false) :
    Misses ctx rule (.reference "EscapeSequence") pos := by
  have hrule := hn.suffix
  refine Misses.reference hrule (visible_names hn.built 12 rfl rfl rfl) (Misses.seq hrule rfl ?_)
  refine MissesRow.later (Takes.one hrule rfl h rfl) (MissesRow.here (Misses.anyOf hrule rfl h.next ?_))
  refine (Option.any_eq_false _ _).2 fun c hc => ?_
  exact (any_accepts_oneOf Escape.codes c).trans ((Option.any_eq_false _ _).1 hrest c hc)

section quoted

variable {texts : List String} {stops : List Char}
  (hone : (texts.map Expr.lit).all Expr.isOne = true)
  (hstops : ∀ c, (texts.map Expr.lit).any (·.accepts c) = true ↔ c = '\\' ∨ c ∈ stops)
include hone hstops

/-- A character in its written form, where some others cannot stand for themselves. -/
theorem Notation.covers_character (hc : Escape.Stands stops c text) (h : ctx.At pos (text ++ rest)) :
    Covers ctx rule (.choice [.reference "EscapeSequence", anyExcept texts]) pos
      (pos + text.length) := by
  have hrule := hn.suffix
  cases hc with
  | escaped hcode _ =>
    obtain ⟨asts, htakes, htile⟩ := hn.covers_escape h hcode
    exact ⟨asts, Takes.choice hrule h.le rfl (.here htakes), htile⟩
  | plain hne hmem =>
    have hnot : Misses ctx rule (.choice (texts.map Expr.lit)) pos := by
      refine Misses.anyOf hrule hone h (Bool.eq_false_iff.2 ((hstops c).not.2 ?_))
      exact not_or.2 ⟨hne, hmem⟩
    have hrow := TakesRow.cons (Takes.notAhead hrule h.le hnot)
      (TakesRow.cons (Takes.one hrule (e := .anyChar) rfl h rfl) TakesRow.nil)
    have hplain : Takes ctx rule (anyExcept texts) pos (pos + 1) [.terminal pos 1] :=
      Takes.seq hrule h.le rfl hrow
    refine ⟨_, Takes.choice hrule h.le rfl (.later (hn.misses_escape h ?_) (.here hplain)), rfl, rfl⟩
    simpa using hne

/-- Where no written form of a character starts. -/
theorem Notation.misses_character (hbars : Escape.Bars stops text) (h : ctx.At pos text) :
    Misses ctx rule (.choice [.reference "EscapeSequence", anyExcept texts]) pos := by
  have hrule := hn.suffix
  have hplain : ∀ {c rest}, c = '\\' ∨ c ∈ stops → ctx.At pos (c :: rest) →
      Misses ctx rule (anyExcept texts) pos := by
    intro c rest hc hat
    have hstop := Takes.anyOf hrule hone hat ((hstops c).2 hc)
    exact Misses.seq hrule rfl (MissesRow.here (Misses.notAhead hrule hstop))
  refine Misses.choice hrule rfl (List.forall_mem_cons.2 ⟨?_, List.forall_mem_singleton.2 ?_⟩)
  · cases hbars with
    | nil => exact hn.misses_escape h (by simp)
    | stop hne _ => exact hn.misses_escape h (by simpa using hne)
    | escape hcode => exact hn.misses_code h hcode
  · cases hbars with
    | nil =>
      have hnot := Misses.anyOf hrule hone h rfl
      refine Misses.seq hrule rfl (MissesRow.later (Takes.notAhead hrule h.le hnot) ?_)
      exact MissesRow.here (Misses.one hrule rfl h rfl)
    | stop _ hc => exact hplain (.inr hc) h
    | escape _ => exact hplain (.inl rfl) h

end quoted

end words
end Spec
end Packrat
