import Packrat.Proofs.Lexemes

/-!
# Operands of grammar notation

What the rules of the notation for names, literals and character classes give of a text that is written
as an expression, and which expression that stands for.

* **`Spec.Parsed`** — a rule of the notation takes the input from one position to another, and what it
  gives stands for an expression.
* `Notation.parsed_identifier`, `parsed_string`, `parsed_char`, `parsed_class`, `parsed_any` — each kind
  of operand but parentheses.
-/

namespace Packrat

/-- The node of a rule is over its children. -/
theorem Ast.exists_covering (label : String) (pos stop : Nat) (asts : List Ast) :
    ∃ start len, covering label pos stop asts = ⟨label, start, len, none, asts⟩ := by
  cases asts with
  | nil => exact ⟨pos, stop - pos, rfl⟩
  | cons ast rest =>
    obtain ⟨last, -, hspanning⟩ := exists_spanning?_cons label ast rest
    exact ⟨ast.pos, last.pos + last.len - ast.pos, by rw [covering, hspanning, Option.getD_some]⟩

/-- A rule gives a node over the nodes of its body. -/
theorem Takes.node {ctx : Context} {rule : LeftRule} {name : String} {tails : List (List Expr)}
    {bases : List Expr} (hrule : rule.Follows ctx.grammar name tails bases) {label : String}
    {body : Expr} (hnames : ctx.grammar.Names label false body) {pos stop : Nat} {asts : List Ast}
    (h : Takes ctx rule body pos stop asts) :
    ∃ start len, Takes ctx rule (.reference label) pos stop [⟨label, start, len, none, asts⟩] := by
  obtain ⟨start, len, hcovering⟩ := Ast.exists_covering label pos stop asts
  refine ⟨start, len, ?_⟩
  rw [← hcovering]
  exact Takes.reference hrule hnames h

namespace Spec

/-- **Whether a rule of the notation takes the input** from one position to another and gives a node
that stands for an expression. -/
def Parsed (ctx : Context) (rule : LeftRule) (name : String) (e : Expr) (pos stop : Nat) : Prop :=
  ∃ ast, Takes ctx rule (.reference name) pos stop [ast] ∧ ast.label = name ∧
    toExpr ctx.input ast = .ok e

/-- The text of a node. -/
theorem chars_eq {ctx : Context} {pos : Nat} {text rest : List Char} {label : String} {asts : List Ast}
    (h : ctx.At pos (text ++ rest)) :
    chars ctx.input ⟨label, pos, text.length, none, asts⟩ = text := h.extract_eq

/-- The text of a terminal of one character. -/
theorem chars_terminal {ctx : Context} {pos : Nat} {c : Char} {rest : List Char}
    (h : ctx.At pos (c :: rest)) : chars ctx.input (.terminal pos 1) = [c] :=
  chars_eq (show ctx.At pos ([c] ++ rest) from h)

/-- The text between the quotes of a node. -/
theorem quotedBody_eq {ctx : Context} {pos : Nat} {text rest : List Char} {first last : Char}
    {label : String} {asts : List Ast} (h : ctx.At pos (first :: (text ++ [last]) ++ rest)) :
    quotedBody ctx.input ⟨label, pos, (first :: (text ++ [last])).length, none, asts⟩ = text := by
  have hlength : (first :: (text ++ [last])).length = text.length + 2 := by simp
  rw [quotedBody, if_neg (by rw [hlength]; simp), hlength]
  have hstop : pos + (text.length + 2) - 1 = pos + 1 + text.length := by omega
  rw [hstop]
  exact h.inside.extract_eq

section operands

variable {ctx : Context} {rule : LeftRule} (hn : Notation ctx rule) {pos : Nat} {c : Char}
  {text rest : List Char}
include hn

/-! ## Names and literals -/

/-- A name. -/
theorem Notation.parsed_identifier {name : String} (hname : isIdentifier name.toList = true)
    (h : ctx.At pos (name.toList ++ rest)) (hrest : rest.head?.any isNamePart = false) :
    Parsed ctx rule "Identifier" (.reference name) pos (pos + name.toList.length) := by
  obtain ⟨asts, htakes⟩ := hn.takes_identifier hname h hrest
  refine ⟨_, htakes, rfl, ?_⟩
  show Except.ok (Expr.reference (String.ofList (chars ctx.input _))) = _
  rw [chars_eq h, String.ofList_toList]

omit hn in
/-- Characters in their written forms are read back. -/
theorem decode_flatMap {stops : List Char} {f : Char → List Char} : ∀ {text : List Char},
    (∀ c ∈ text, Escape.Stands stops c (f c)) → Escape.decode (text.flatMap f) = text
  | [], _ => rfl
  | c :: text, h => by
    obtain ⟨hc, htext⟩ := List.forall_mem_cons.1 h
    rw [List.flatMap_cons, hc.decode_append, decode_flatMap htext]

/-- What stands between quotes. -/
theorem Notation.takes_quoted {name quote : String} {q : Char} {inner : Expr}
    (hquote : quote.toList = [q]) (hnames : ctx.grammar.Names name false
      (.seq [.lit quote, inner, .lit quote])) (h : ctx.At pos (q :: (text ++ [q]) ++ rest))
    (hinner : Covers ctx rule inner (pos + 1) (pos + 1 + text.length)) :
    ∃ asts, Takes ctx rule (.reference name) pos (pos + (q :: (text ++ [q])).length)
      [⟨name, pos, (q :: (text ++ [q])).length, none, asts⟩] := by
  have hrule := hn.suffix
  rw [Expr.lit, hquote] at hnames
  have hopen : Covers ctx rule (.literal [q]) pos (pos + 1) :=
    .one hrule rfl h (beq_self_eq_true q)
  have hclose : Covers ctx rule (.literal [q]) (pos + 1 + text.length) (pos + 1 + text.length + 1) :=
    .one hrule rfl h.inside.skip (beq_self_eq_true q)
  have hbody := Covers.seq hrule h.le rfl (.cons hopen (.cons hinner (.cons hclose .nil)))
  obtain ⟨asts, htakes⟩ := hbody.word hrule hnames
  have hstop : pos + 1 + text.length + 1 = pos + (q :: (text ++ [q])).length := by
    simp only [List.length_cons, List.length_append, List.length_nil]
    omega
  rw [hstop, Nat.add_sub_cancel_left] at htakes
  exact ⟨asts, htakes⟩

omit hn in
/-- What ends the characters of a text between double quotes. -/
theorem any_accepts_stringStop (c : Char) :
    (["\"", "\\"].map Expr.lit).any (·.accepts c) = true ↔ c = '\\' ∨ c ∈ ['\x22'] := by
  show (c == '\x22' || (c == '\\' || false)) = true ↔ _
  simp [or_comm]

/-- A text between double quotes, in any written form of its characters. -/
theorem Notation.parsed_string {f : Char → List Char}
    (hf : ∀ c ∈ text, Escape.Stands ['\x22'] c (f c))
    (h : ctx.At pos ('\x22' :: (text.flatMap f ++ ['\x22']) ++ rest)) :
    Parsed ctx rule "StringLiteral" (.literal text) pos
      (pos + ('\x22' :: (text.flatMap f ++ ['\x22'])).length) := by
  have hrule := hn.suffix
  have hmany : CoversMany ctx rule (.choice [.reference "EscapeSequence", anyExcept ["\"", "\\"]])
      (pos + 1) (pos + 1 + (text.flatMap f).length) := by
    refine coversMany_pieces (fun place hplace => ?_) (fun c hc => ⟨(hf c hc).ne_nil, ?_⟩) h.inside
    · exact hn.misses_character rfl any_accepts_stringStop (.stop (by decide) List.mem_cons_self) hplace
    · exact fun place others => hn.covers_character rfl any_accepts_stringStop (hf c hc)
  obtain ⟨asts, htakes⟩ := hn.takes_quoted rfl (visible_names hn.built 10 rfl rfl rfl) h
    (.star hrule h.next.le hmany)
  refine ⟨_, htakes, rfl, ?_⟩
  show Except.ok (Expr.literal (Escape.decode (quotedBody ctx.input _))) = _
  rw [quotedBody_eq h, decode_flatMap hf]

omit hn in
/-- The node of a character. -/
theorem toExpr_char {input : Array Char} {start len : Nat} {children : List Ast} {c : Char}
    (hc : Escape.decodeChar? (quotedBody input ⟨"CharLiteral", start, len, none, children⟩) = some c) :
    toExpr input ⟨"CharLiteral", start, len, none, children⟩ = .ok (.char c) := by
  have hleaf : toExpr input ⟨"CharLiteral", start, len, none, children⟩ =
      leafExpr input ⟨"CharLiteral", start, len, none, children⟩ := rfl
  rw [hleaf]
  simp only [leafExpr, hc]
  rfl

/-- A character between single quotes. -/
theorem Notation.parsed_char (hc : isLegible c = true) (h : ctx.At pos ((Expr.char c).render ++ rest)) :
    Parsed ctx rule "CharLiteral" (.char c) pos (pos + (Expr.char c).render.length) := by
  have hone : (["'", "\\"].map Expr.lit).all Expr.isOne = true := rfl
  have hstops : ∀ c, (["'", "\\"].map Expr.lit).any (·.accepts c) = true ↔
      c = '\\' ∨ c ∈ ['\x27'] := by
    intro c
    show (c == '\x27' || (c == '\\' || false)) = true ↔ _
    simp [or_comm]
  rw [Expr.render] at h ⊢
  have hstands : Escape.Stands ['\x27'] c (Escape.encodeChar c) :=
    (Escape.stands_encodeChar hc).mono (by simp)
  obtain ⟨asts, htakes⟩ := hn.takes_quoted rfl (visible_names hn.built 11 rfl rfl rfl) h
    (hn.covers_character hone hstops hstands h.inside)
  refine ⟨_, htakes, rfl, toExpr_char ?_⟩
  rw [quotedBody_eq h, hstands.decodeChar?_eq]

/-! ## Character classes -/

omit hn in
/-- What ends a member of a class. -/
theorem any_accepts_memberStop (c : Char) :
    (["]", "\\", "-"].map Expr.lit).any (·.accepts c) = true ↔ c = '\\' ∨ c ∈ [']', '-'] := by
  show (c == ']' || (c == '\\' || (c == '-' || false))) = true ↔ _
  simp [or_left_comm]

/-- A member of a class. -/
theorem Notation.takes_member (hc : Escape.Stands [']', '-'] c text) (h : ctx.At pos (text ++ rest)) :
    ∃ ast, Takes ctx rule (.reference "CharClassChar") pos (pos + text.length) [ast] ∧
      ast.label = "CharClassChar" ∧ classMember ctx.input ast = .ok c := by
  obtain ⟨asts, htakes⟩ := (hn.covers_character rfl any_accepts_memberStop hc h).word
    hn.suffix (visible_names hn.built 15 rfl rfl rfl)
  rw [Nat.add_sub_cancel_left] at htakes
  refine ⟨_, htakes, rfl, ?_⟩
  rw [classMember, chars_eq h, hc.decodeChar?_eq]
  rfl

/-- No member of a class starts with its end or with a hyphen. -/
theorem Notation.misses_member (hc : c ∈ [']', '-']) (h : ctx.At pos (c :: rest)) :
    Misses ctx rule (.reference "CharClassChar") pos := by
  have hne : c ≠ '\\' := by
    rintro rfl
    exact absurd hc (by decide)
  exact Misses.reference hn.suffix (visible_names hn.built 15 rfl rfl rfl)
    (hn.misses_character rfl any_accepts_memberStop (.stop hne hc) h)

omit hn in
/-- A range starts with its first member. -/
theorem exists_render (range : CharRange) :
    ∃ more, range.render = CharRange.renderMember range.lo ++ more := by
  rw [CharRange.render]
  split
  · exact ⟨[], (List.append_nil _).symm⟩
  · exact ⟨_, rfl⟩

omit hn in
/-- The ranges of a class start with a backslash, or with the first character of the first range. -/
theorem head?_render {range : CharRange} (hlo : isLegible range.lo = true) (text : List Char) :
    (range.render ++ text).head? = some '\\' ∨
      (range.render ++ text).head? = some range.lo ∧ range.lo ∉ [']', '-'] := by
  obtain ⟨more, hrender⟩ := exists_render range
  have hstands := Escape.stands_renderMember hlo
  revert hstands
  rw [hrender]
  generalize CharRange.renderMember range.lo = written
  rintro (⟨-, hmem⟩ | _)
  · exact .inr ⟨rfl, hmem⟩
  · exact .inl rfl

omit hn in
/-- A range is not written as nothing. -/
theorem length_render_pos {range : CharRange} (hlo : isLegible range.lo = true) :
    0 < range.render.length := by
  obtain ⟨more, hrender⟩ := exists_render range
  rw [hrender, List.length_append]
  exact Nat.add_pos_left (List.length_pos_of_ne_nil (Escape.stands_renderMember hlo).ne_nil) _

omit hn in
/-- Whether a node of a class stands for a range, whatever stands after it. -/
def StandsForRange (ctx : Context) (ast : Ast) (range : CharRange) : Prop :=
  ∀ {more ranges}, classRanges ctx.input more = .ok ranges →
    classRanges ctx.input (ast :: more) = .ok (range :: ranges)

/-- A single character of a class. -/
theorem Notation.takes_single (hc : isLegible c = true)
    (h : ctx.At pos (CharRange.renderMember c ++ rest)) (hrest : rest.head? ≠ some '-') :
    ∃ ast, Takes ctx rule (.choice [.reference "CharRange", .reference "CharClassChar"]) pos
        (pos + (CharRange.renderMember c).length) [ast] ∧ ast.isTerminal = false ∧
      StandsForRange ctx ast (.single c) := by
  have hrule := hn.suffix
  obtain ⟨ast, htakes, hlabel, hmember⟩ := hn.takes_member (Escape.stands_renderMember hc) h
  have hmiss : Misses ctx rule (.reference "CharRange") pos := by
    refine Misses.reference hrule (visible_names hn.built 14 rfl rfl rfl) (Misses.seq hrule rfl ?_)
    exact MissesRow.later htakes (MissesRow.here (Misses.other hrule h.skip hrest))
  refine ⟨ast, Takes.choice hrule h.le rfl (.later hmiss (.here htakes)), ?_, ?_⟩
  · rw [Ast.isTerminal, hlabel]
    rfl
  · intro more ranges hmore
    rw [classRanges, hlabel, hmember, hmore]
    rfl

/-- A range of a class. -/
theorem Notation.takes_range {range : CharRange} (hlo : isLegible range.lo = true)
    (hhi : isLegible range.hi = true) (h : ctx.At pos (CharRange.renderMember range.lo ++
      '-' :: (CharRange.renderMember range.hi ++ rest))) :
    ∃ ast, Takes ctx rule (.choice [.reference "CharRange", .reference "CharClassChar"]) pos
        (pos + (CharRange.renderMember range.lo).length + 1 +
          (CharRange.renderMember range.hi).length) [ast] ∧ ast.isTerminal = false ∧
      StandsForRange ctx ast range := by
  have hrule := hn.suffix
  obtain ⟨lo, htakes, hlabel, hmember⟩ := hn.takes_member (Escape.stands_renderMember hlo) h
  have hhyphen : Takes ctx rule (.lit "-") _ _ _ := Takes.one hrule rfl h.skip rfl
  obtain ⟨hi, htakes', hlabel', hmember'⟩ := hn.takes_member (Escape.stands_renderMember hhi) h.skip.next
  have hrow := TakesRow.cons htakes (TakesRow.cons hhyphen (TakesRow.cons htakes' TakesRow.nil))
  obtain ⟨start, len, hrange⟩ := Takes.node hrule (visible_names hn.built 14 rfl rfl rfl)
    (Takes.seq hrule h.le rfl hrow)
  refine ⟨_, Takes.choice hrule h.le rfl (.here hrange), rfl, ?_⟩
  intro more ranges hmore
  have hlabeled : [lo, .terminal (pos + (CharRange.renderMember range.lo).length) 1, hi].filter
      (·.label == "CharClassChar") = [lo, hi] := by
    simp [hlabel, hlabel', Ast.terminal, Ast.terminalLabel]
  simp only [classRanges, Ast.labeled, List.cons_append, List.nil_append, if_pos]
  simp only [hlabeled, hmember, hmember', hmore]
  rfl

/-- A range of a class as it is written. -/
theorem Notation.takes_written {range : CharRange} (hlo : isLegible range.lo = true)
    (hhi : isLegible range.hi = true) (h : ctx.At pos (range.render ++ rest))
    (hrest : rest.head? ≠ some '-') :
    ∃ ast, Takes ctx rule (.choice [.reference "CharRange", .reference "CharClassChar"]) pos
        (pos + range.render.length) [ast] ∧ ast.isTerminal = false ∧ StandsForRange ctx ast range := by
  rw [CharRange.render] at h ⊢
  split <;> rename_i heq
  · rw [if_pos heq] at h
    have hsingle : CharRange.single range.lo = range := by
      cases range
      simp_all [CharRange.single]
    rw [← hsingle]
    exact hn.takes_single hlo h hrest
  · rw [if_neg heq, List.append_assoc] at h
    have hrange := hn.takes_range hlo hhi h
    rwa [Nat.add_assoc, Nat.add_assoc, Nat.add_comm 1, ← List.length_cons, ← List.length_append]
      at hrange

/-- The ranges of a class. -/
theorem Notation.takes_ranges : ∀ {ranges : List CharRange} {pos : Nat},
    (∀ range ∈ ranges, isLegible range.lo = true ∧ isLegible range.hi = true) →
    ctx.At pos (ranges.flatMap CharRange.render ++ ']' :: rest) →
    ∃ asts, TakesMany ctx rule (.choice [.reference "CharRange", .reference "CharClassChar"]) pos
        (pos + (ranges.flatMap CharRange.render).length) asts ∧
      asts.length = ranges.length ∧ (∀ ast ∈ asts, ast.isTerminal = false) ∧
      ∀ {more others}, classRanges ctx.input more = .ok others →
        classRanges ctx.input (asts ++ more) = .ok (ranges ++ others)
  | [], pos, _, h => by
    refine ⟨[], TakesMany.nil h.le ?_, rfl, nofun, fun hmore => hmore⟩
    have hrule := hn.suffix
    have hmiss := hn.misses_member (List.mem_cons_self) h
    refine Misses.choice hrule rfl (List.forall_mem_cons.2 ⟨?_, List.forall_mem_singleton.2 hmiss⟩)
    exact Misses.reference hrule (visible_names hn.built 14 rfl rfl rfl)
      (Misses.seq hrule rfl (MissesRow.here hmiss))
  | range :: ranges, pos, hlegible, h => by
    obtain ⟨⟨hlo, hhi⟩, hothers⟩ := List.forall_mem_cons.1 hlegible
    rw [List.flatMap_cons, List.append_assoc] at h
    have hnext : (ranges.flatMap CharRange.render ++ ']' :: rest).head? ≠ some '-' := by
      cases ranges with
      | nil => simp
      | cons next ranges =>
        rw [List.flatMap_cons, List.append_assoc]
        rcases head?_render (hothers next List.mem_cons_self).1
          (ranges.flatMap CharRange.render ++ ']' :: rest) with hhead | ⟨hhead, hmem⟩
        · simp [hhead]
        · intro heq
          rw [hhead, Option.some.injEq] at heq
          simp [heq] at hmem
    obtain ⟨ast, htakes, hterminal, hstands⟩ := hn.takes_written hlo hhi h hnext
    obtain ⟨asts, hmany, hlength, hterminals, hreads⟩ := Notation.takes_ranges hothers h.skip
    have hlt : pos < pos + range.render.length := Nat.lt_add_of_pos_right (length_render_pos hlo)
    rw [List.flatMap_cons, List.length_append, ← Nat.add_assoc]
    refine ⟨ast :: asts, TakesMany.cons htakes hlt hmany, by simp [hlength],
      List.forall_mem_cons.2 ⟨hterminal, hterminals⟩, fun hmore => ?_⟩
    exact hstands (hreads hmore)

omit hn in
/-- Terminals of a class stand for no range. -/
theorem classRanges_terminal (input : Array Char) (pos len : Nat) (more : List Ast) :
    classRanges input (.terminal pos len :: more) = classRanges input more := by
  rw [classRanges]
  rfl

omit hn in
/-- What the node of a class stands for. -/
theorem toExpr_class {input : Array Char} {start len : Nat} {children : List Ast}
    {ranges : List CharRange} {inverted : Bool} (hranges : classRanges input children = .ok ranges)
    (hinverted : children[1]?.any (isToken input · "^") = inverted) :
    toExpr input ⟨"CharClass", start, len, none, children⟩ = .ok (.charClass ranges inverted) := by
  show (do
    return Expr.charClass (← classRanges input children)
      (children[1]?.any (isToken input · "^")) : Except GrammarError Expr) = _
  rw [hranges, hinverted]
  rfl

/-- The mark of an inverted class. -/
theorem Notation.takes_caret {inverted : Bool}
    (h : ctx.At pos ((if inverted then ['^'] else []) ++ text))
    (hcaret : inverted = false → text.head? ≠ some '^') :
    ∃ marks, Takes ctx rule (.optional (.lit "^")) pos
        (pos + (if inverted then ['^'] else []).length) marks ∧
      (∀ more, classRanges ctx.input (marks ++ more) = classRanges ctx.input more) ∧
      ∀ ast more, ast.isTerminal = false →
        (marks ++ ast :: more)[0]?.any (isToken ctx.input · "^") = inverted := by
  have hrule := hn.suffix
  cases inverted with
  | true =>
    refine ⟨_, Takes.optional hrule (Takes.one hrule rfl h rfl), ?_, fun ast more _ => ?_⟩
    · exact fun more => classRanges_terminal ctx.input pos 1 more
    · have hterminal : (Ast.terminal pos 1).isTerminal = true := rfl
      simp [isToken, chars_terminal h, hterminal]
  | false =>
    refine ⟨[], Takes.absent hrule h.le (Misses.other hrule h (hcaret rfl)), fun _ => rfl, ?_⟩
    intro ast more hast
    simp [isToken, hast]

/-- A class. -/
theorem Notation.parsed_class {ranges : List CharRange} {inverted : Bool} (hne : ranges ≠ [])
    (hlegible : ∀ range ∈ ranges, isLegible range.lo = true ∧ isLegible range.hi = true)
    (hcaret : inverted = false → ∀ range, ranges.head? = some range → range.lo ≠ '^')
    (h : ctx.At pos ((Expr.charClass ranges inverted).render ++ rest)) :
    Parsed ctx rule "CharClass" (.charClass ranges inverted) pos
      (pos + (Expr.charClass ranges inverted).render.length) := by
  have hrule := hn.suffix
  obtain ⟨first, others, rfl⟩ := List.exists_cons_of_ne_nil hne
  obtain ⟨⟨hlo, -⟩, -⟩ := List.forall_mem_cons.1 hlegible
  rw [Expr.render] at h ⊢
  have hat : ctx.At (pos + 1) ((if inverted then ['^'] else []) ++
      ((first :: others).flatMap CharRange.render ++ ']' :: rest)) := by
    have hinside := h.inside
    rwa [List.append_assoc] at hinside
  have hhead : inverted = false →
      ((first :: others).flatMap CharRange.render ++ ']' :: rest).head? ≠ some '^' := by
    intro hinverted
    rw [List.flatMap_cons, List.append_assoc]
    rcases head?_render hlo (others.flatMap CharRange.render ++ ']' :: rest) with hhead | ⟨hhead, -⟩
    · simp [hhead]
    · rw [hhead]
      simpa using hcaret hinverted first rfl
  have hpositive : 0 < ((first :: others).flatMap CharRange.render).length := by
    rw [List.flatMap_cons, List.length_append]
    exact Nat.add_pos_left (length_render_pos hlo) _
  obtain ⟨marks, hmarks, hskip, hinverted⟩ := hn.takes_caret hat hhead
  obtain ⟨asts, hmany, hlength, hterminals, hreads⟩ := hn.takes_ranges hlegible hat.skip
  obtain ⟨ast, asts, rfl⟩ := List.exists_cons_of_length_eq_add_one hlength
  have hopen : Takes ctx rule (.lit "[") _ _ _ := Takes.one hrule rfl h rfl
  have hplus : Takes ctx rule (.plus (.choice [.reference "CharRange", .reference "CharClassChar"]))
      _ _ _ := Takes.repeated hrule hat.skip.le hmany fun _ => Nat.lt_add_of_pos_right hpositive
  have hclose : Takes ctx rule (.lit "]") _ _ _ := Takes.one hrule rfl hat.skip.skip rfl
  have hrow := TakesRow.cons hopen (TakesRow.cons hmarks (TakesRow.cons hplus
    (TakesRow.cons hclose TakesRow.nil)))
  obtain ⟨start, len, htakes⟩ := Takes.node hrule (visible_names hn.built 13 rfl rfl rfl)
    (Takes.seq hrule h.le rfl hrow)
  have hstop : pos + ('[' :: ((if inverted then ['^'] else []) ++
      (first :: others).flatMap CharRange.render ++ [']'])).length =
      pos + 1 + (if inverted then ['^'] else []).length +
        ((first :: others).flatMap CharRange.render).length + 1 := by
    simp only [List.length_cons, List.length_append, List.length_nil]
    omega
  rw [hstop]
  refine ⟨_, htakes, rfl, ?_⟩
  refine toExpr_class ?_ (hinverted ast _ (hterminals ast List.mem_cons_self))
  refine (classRanges_terminal ctx.input pos 1 _).trans ((hskip _).trans ?_)
  exact (hreads (classRanges_terminal ctx.input _ 1 [])).trans (by rw [List.append_nil])

/-- Any character. -/
theorem Notation.parsed_any (h : ctx.At pos ('.' :: rest)) :
    Parsed ctx rule "AnyChar" .anyChar pos (pos + 1) := by
  have hrule := hn.suffix
  obtain ⟨start, len, htakes⟩ := Takes.node hrule (visible_names hn.built 16 rfl rfl rfl)
    (Takes.one hrule (e := .lit ".") rfl h rfl)
  exact ⟨_, htakes, rfl, rfl⟩

end operands
end Spec
end Packrat
