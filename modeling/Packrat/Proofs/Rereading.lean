import Packrat.Proofs.Canonical
import Packrat.Proofs.RoundTrip

/-!
# Grammars that were read are read back

* `Spec.children_of_settled` — the nodes of a specification without errors.
* **`Spec.exists_definitions`** — a grammar that was read is built from canonical definitions.
* `Spec.read_ne_ok` — a text whose first rule does not match is rejected.
* `Grammar.writes` — the clauses that can be written and read back.
* **`read_render_of_read`** — a grammar that was read is written as a text from which it is read again, if
  its clauses can be written.
* `read_render_fails` — without that condition the text can be rejected, or another grammar be read.
-/

namespace Packrat
namespace Spec

/-! ## Parses -/

/-- A specification is parsed with the grammar of the notation. -/
theorem parse_of_parseNotation {spec : String} {p : Parse} {events : List Event}
    (h : parseNotation spec = .ok (p, events)) :
    ∃ g top, notationGrammar = .ok g ∧ g.rule? "Grammar" = some top ∧
      parse g "Grammar" spec {} = .ok p := by
  unfold parseNotation at h
  obtain ⟨g, hg, h⟩ := except_bind_eq_ok.1 h
  split at h
  · rename_i job hjob
    refine ⟨g, job.top, hg, (Job.make_inv hjob).2.1, ?_⟩
    rw [parse, hjob]
    show Except.ok job.run.1 = _
    rw [show job.run = (p, events) from Except.ok.inj h]
  · cases h

section parses

variable {g : Grammar} {rule : LeftRule} {spec : String} (hn : Notation ⟨g, spec.toList.toArray⟩ rule)
  {body : Expr} (hnames : g.Names "Grammar" false body) {p : Parse} {events : List Event}
  (hparse : parseNotation spec = .ok (p, events))
include hn hnames hparse

/-- **A specification has errors** unless what the grammar of the notation reads covers it. -/
theorem hasErrors_of_reads : ∃ top, g.Denotes body top ∧ ∀ outcome,
    Reads ⟨g, spec.toList.toArray⟩ rule top 0 outcome →
      p.hasErrors = !(g.job "Grammar" top spec {}).covers outcome := by
  obtain ⟨g', top, hg, hr, hp⟩ := parse_of_parseNotation hparse
  cases hn.built.symm.trans hg
  obtain ⟨-, found, hfind, -, hbody⟩ := hnames
  obtain rfl : found.body = top := by
    rw [Grammar.rule?, show unmarked "Grammar" = "Grammar" from rfl, hfind] at hr
    exact Option.some.inj hr
  obtain ⟨first, outcome, work, hfirst, -, -, hphases⟩ := parse_phases (build_wellFormed hg) hr spec {}
  cases hp.symm.trans hphases
  refine ⟨found.body, hbody, fun read hread => ?_⟩
  obtain rfl := hfirst.eq_of_reads hn.suffix.form hread
  rfl

/-- A text that the grammar of the notation does not match has errors. -/
theorem hasErrors_of_misses (h : Misses ⟨g, spec.toList.toArray⟩ rule body 0) : p.hasErrors = true := by
  obtain ⟨top, htop, herrors⟩ := hasErrors_of_reads hn hnames hparse
  exact herrors _ (h top htop)

/-- **A specification without errors** gives the nodes that the grammar of the notation does. -/
theorem children_of_settled {P : Ast → Prop} {least : Nat}
    (h : Settled ⟨g, spec.toList.toArray⟩ rule P body least 0) (herrors : p.hasErrors = false) :
    p.input = spec.toList.toArray ∧ ∀ ast ∈ (Ast.ofParse p).children, P ast := by
  rcases h with ⟨stop, asts, htakes, hlands⟩ | hmiss
  · obtain ⟨top, htop, hread⟩ := hasErrors_of_reads hn hnames hparse
    obtain ⟨node, hnode, hgives⟩ := htakes.reads htop
    have hcovers : (g.job "Grammar" top spec {}).covers (.matched node) = true := by
      rw [hread _ hnode, Bool.not_eq_false'] at herrors
      exact herrors
    have hlength : node.len = spec.toList.length := by
      simpa [Job.covers, Grammar.job, Outcome.node?, hgives.start] using hcovers
    obtain rfl : stop = spec.toList.length := by
      rw [← hgives.add_len, hlength, Nat.zero_add]
    obtain ⟨p', events', hparse', -, hinput, hchildren⟩ := exists_parseNotation hn hnames htakes
    cases hparse.symm.trans hparse'
    rw [hchildren]
    exact ⟨hinput, hlands.all⟩
  · rw [hasErrors_of_misses hn hnames hparse hmiss] at herrors
    cases herrors

end parses

/-- **Every definition that is read** has an identifier as its name, perhaps with a mark, and a canonical
body. -/
theorem exists_definitions {spec : String} {g : Grammar} (h : read spec = .ok g) :
    ∃ definitions, Grammar.build definitions = .ok g ∧ ∀ definition ∈ definitions,
      isIdentifier (unmarked definition.name).toList = true ∧ definition.body.Each Canonical := by
  obtain ⟨p, events, definitions, hparse, herrors, hdefinitions, hb⟩ := read_eq_ok_iff.1 h
  obtain ⟨notated, hnotated, hnotation⟩ := exists_notation
  obtain ⟨rule, hn⟩ := hnotation spec.toList.toArray
  obtain ⟨hinput, hdeclares⟩ := children_of_settled hn (visible_names hnotated 0 rfl rfl rfl) hparse
    (hn.settles_grammar (Nat.zero_le _)) herrors
  refine ⟨definitions, hb, fun definition hd => ?_⟩
  rw [hinput] at hdefinitions
  obtain ⟨i, hlt, rfl⟩ := List.getElem_of_mem hd
  have hpairs := forall₂_of_mapM_eq_ok hdefinitions
  have hast := hpairs.get (by rwa [hpairs.length_eq]) hlt
  exact hdeclares _ (List.get_mem _ _) _ hast

/-! ## Texts that are rejected -/

section rejected

variable {ctx : Context} {rule : LeftRule} (hn : Notation ctx rule) {pos : Nat} {c : Char}
  {rest : List Char}
include hn

/-- No text between double quotes starts with a backslash before what is no code. -/
theorem Notation.misses_string (hc : c ∉ Escape.codes)
    (h : ctx.At pos ('\x22' :: '\\' :: c :: rest)) :
    Misses ctx rule (.reference "StringLiteral") pos := by
  have hrule := hn.suffix
  have hcharacter := hn.misses_character rfl any_accepts_stringStop (.escape (by simpa using hc)) h.next
  have hnone := Takes.star hrule h.next.le (TakesMany.nil h.next.le hcharacter)
  have hquote : Misses ctx rule (.lit "\"") (pos + 1) := Misses.one hrule rfl h.next rfl
  refine Misses.reference hrule (visible_names hn.built 10 rfl rfl rfl) (Misses.seq hrule rfl ?_)
  exact MissesRow.later (Takes.one hrule rfl h rfl) (MissesRow.later hnone (MissesRow.here hquote))

/-- Nor does an expression. -/
theorem Notation.misses_escaped (hc : c ∉ Escape.codes)
    (h : ctx.At pos ('\x22' :: '\\' :: c :: rest)) :
    Misses ctx rule (.reference "Expression") pos := by
  refine hn.misses_expression (hn.misses_item h rfl fun operand hoperand => ?_)
  by_cases hstring : operand.1 = "StringLiteral"
  · rw [hstring]
    exact hn.misses_string hc h
  · refine hn.misses_operand hoperand h ?_
    exact (by decide : ∀ operand ∈ operands, operand.1 ≠ "StringLiteral" → operand.2 '\x22' = false)
      operand hoperand hstring

/-- A rule without an expression. -/
theorem Notation.misses_bodiless {name : List Char} (hname : isIdentifier name = true)
    (h : ctx.At pos (name ++ ' ' :: '<' :: '-' :: ' ' :: rest)) (hrest : startsBlank rest = false)
    (hbody : Misses ctx rule (.reference "Expression") (pos + name.length + 4)) :
    Misses ctx rule (.reference "Rule") pos := by
  have hrule := hn.suffix
  obtain ⟨c, more, rfl, hc⟩ := exists_of_isIdentifier hname
  have hmark : ctx.At pos ((if false then ['~'] else []) ++ c :: (more ++ _)) := h
  obtain ⟨marks, hmarks, -⟩ := hn.takes_mark hmark hc
  obtain ⟨asts, hidentifier⟩ := hn.takes_identifier hname h rfl
  have harrow := h.skip.next
  have htakes : Takes ctx rule (.lit "<-") _ _ _ :=
    Takes.literal hrule (show ctx.At _ (['<', '-'] ++ _) from harrow)
  refine Misses.reference hrule (visible_names hn.built 1 rfl rfl rfl) (Misses.seq hrule rfl ?_)
  exact MissesRow.later hmarks (MissesRow.later hidentifier (MissesRow.later
    (hn.takes_blank h.skip (by simp) rfl) (MissesRow.later htakes (MissesRow.later
      (hn.takes_blank harrow.next.next (by simp) hrest) (MissesRow.here hbody)))))

end rejected

/-- **A text whose first rule does not match is rejected.** -/
theorem read_ne_ok {spec : String} (hblank : startsBlank spec.toList = false)
    (h : ∀ {ctx rule}, Notation ctx rule → ctx.At 0 spec.toList → Misses ctx rule (.reference "Rule") 0)
    (g : Grammar) : read spec ≠ .ok g := by
  intro hread
  obtain ⟨p, events, -, hparse, herrors, -, -⟩ := read_eq_ok_iff.1 hread
  obtain ⟨notated, hnotated, hnotation⟩ := exists_notation
  obtain ⟨rule, hn⟩ := hnotation spec.toList.toArray
  have hat : Context.At ⟨notated, spec.toList.toArray⟩ 0 spec.toList := ⟨Nat.zero_le _, rfl⟩
  have hline : Misses _ rule (.seq [.reference "Rule", ws]) 0 :=
    Misses.seq hn.suffix rfl (MissesRow.here (h hn hat))
  have hmiss : Misses _ rule (.seq [ws, .plus (.seq [.reference "Rule", ws])]) 0 :=
    Misses.seq hn.suffix rfl (MissesRow.later (hn.takes_no_blank hat hblank)
      (MissesRow.here (Misses.plus hn.suffix hline)))
  rw [hasErrors_of_misses hn (visible_names hnotated 0 rfl rfl rfl) hparse hmiss] at herrors
  cases herrors

end Spec

/-! ## Grammars -/

/-- Whether a clause looks ahead. -/
def Clause.isLookahead : Clause → Bool
  | .ahead _ | .notAhead _ => true
  | _ => false

/-- **Whether a clause of a grammar that was read can be written and read back**: its characters can, and
no lookahead is the item of a repetition or an option. -/
def Grammar.writes (g : Grammar) : Clause → Bool
  | .literal text => text.all isLegible
  | .char c => isLegible c
  | .charClass ranges _ => ranges.all fun range => isLegible range.lo && isLegible range.hi
  | .repeated item _ | .optional item => !(g.clause? item).any Clause.isLookahead
  | _ => true

/-- A lookahead is one by its clause. -/
theorem Grammar.Denotes.isLookahead_eq {g : Grammar} {e : Expr} {id : ClauseId} (h : g.Denotes e id)
    (hnot : (g.clause? id).any Clause.isLookahead = false) : e.isLookahead = false := by
  cases e with
  | ahead item | notAhead item =>
    obtain ⟨below, hclause, -⟩ := h
    rw [hclause] at hnot
    cases hnot
  | _ => rfl

mutual

/-- A canonical expression is printable if the clauses that stand for it can be written. -/
theorem Grammar.Denotes.writable {g : Grammar}
    (hw : ∀ id clause, g.clause? id = some clause → g.writes clause = true) :
    (e : Expr) → ∀ {id : ClauseId}, e.Each Spec.Canonical → g.Denotes e id → e.Each Expr.Writable
  | .literal _, _, _, h => List.all_eq_true.1 (hw _ _ h)
  | .char _, _, _, h => hw _ _ h
  | .charClass ranges _, _, hcanonical, h => by
    refine ⟨fun range hrange => ?_, hcanonical⟩
    simpa using List.all_eq_true.1 (hw _ _ h) range hrange
  | .anyChar, _, _, _ | .empty, _, _, _ => trivial
  | .reference _, _, hcanonical, _ => hcanonical
  | .seq items, _, hcanonical, ⟨_, _, hitems⟩ | .choice items, _, hcanonical, ⟨_, _, hitems⟩ =>
    ⟨hcanonical.1, Grammar.Denotes.writable_all hw items hcanonical.2 hitems⟩
  | .repeated item _, _, hcanonical, ⟨_, hclause, hitem⟩
  | .optional item, _, hcanonical, ⟨_, hclause, hitem⟩ => by
    have hnot := hw _ _ hclause
    rw [Grammar.writes, Bool.not_eq_true'] at hnot
    exact ⟨hitem.isLookahead_eq hnot, Grammar.Denotes.writable hw item hcanonical.2 hitem⟩
  | .ahead item, _, hcanonical, ⟨_, _, hitem⟩ | .notAhead item, _, hcanonical, ⟨_, _, hitem⟩ =>
    ⟨trivial, Grammar.Denotes.writable hw item hcanonical.2 hitem⟩

/-- The same for several expressions. -/
theorem Grammar.Denotes.writable_all {g : Grammar}
    (hw : ∀ id clause, g.clause? id = some clause → g.writes clause = true) :
    (items : List Expr) → ∀ {ids : List ClauseId}, Expr.EachItem Spec.Canonical items →
    g.DenotesAll items ids → Expr.EachItem Expr.Writable items
  | [], _, _, _ => trivial
  | item :: items, _, hcanonical, ⟨_, _, _, hitem, hitems⟩ =>
    ⟨Grammar.Denotes.writable hw item hcanonical.1 hitem,
      Grammar.Denotes.writable_all hw items hcanonical.2 hitems⟩

end

/-- **A grammar that was read is read back** if its clauses can be written. -/
theorem read_render_of_read {spec : String} {g : Grammar} (h : Spec.read spec = .ok g)
    (hw : g.clauses.toList.all g.writes = true) : Spec.read g.render = .ok g := by
  have hwrites : ∀ id clause, g.clause? id = some clause → g.writes clause = true := by
    intro id clause hclause
    rw [Grammar.clause?, ← Array.getElem?_toList] at hclause
    exact List.all_eq_true.1 hw clause (List.mem_of_getElem? hclause)
  obtain ⟨definitions, hb, hcanonical⟩ := Spec.exists_definitions h
  have hp : ∀ definition ∈ definitions, definition.Printable := by
    intro definition hd
    obtain ⟨hname, hbody⟩ := hcanonical definition hd
    obtain ⟨found, -, hdefines⟩ := findRule?_defines hb hd
    exact ⟨hname, hdefines.denotes.writable hwrites _ hbody⟩
  rw [render_eq_of_printable hb hp]
  exact Spec.read_definitions hb hp

/-- A repetition of a text, with parentheses that have no meaning. -/
def bracketedLine : Spec.Line := ⟨⟨"S", .star (.literal ['a'])⟩, "(\"a\")*".toList⟩

/-- It is written and read back without the parentheses. -/
theorem read_render_of_read_bracketed :
    ∃ g, Spec.read "S <- (\"a\")* ;\n" = .ok g ∧ g.clauses.toList.all g.writes = true ∧
      g.render = "S <- \"a\"* ;\n" ∧ Spec.read g.render = .ok g := by
  obtain ⟨g, hb, hw, hrender⟩ : ∃ g, Grammar.build ([bracketedLine].map Spec.Line.definition) = .ok g ∧
      g.clauses.toList.all g.writes = true ∧ g.render = "S <- \"a\"* ;\n" :=
    ⟨_, rfl, by decide, by decide +kernel⟩
  have hline : ∀ {ctx rule}, Spec.Notation ctx rule → bracketedLine.Reads ctx rule := by
    intro ctx rule hn
    have hoperand : Spec.Operand ctx rule (Expr.literal ['a']).render (.literal ['a']) :=
      Spec.operand_literal hn (List.forall_mem_singleton.2 rfl)
    rw [Expr.render] at hoperand
    have hparens := (Spec.standsFor_of_spelled hn (hoperand.spelled hn)).parens hn
    have hstar := hparens.after hn (d := '*') (by decide) rfl
    exact ⟨by decide, Spec.standsFor_of_spelled hn (hstar.spelled hn)⟩
  have hread := Spec.read_lines hb fun hn => List.forall_mem_singleton.2 (hline hn)
  exact ⟨g, hread, hw, hrender, read_render_of_read hread hw⟩

/-- A text of a character that is written as an escape. -/
def accentedLine : Spec.Line := ⟨⟨"S", .literal ['é']⟩, "\"é\"".toList⟩

/-- A repetition of a lookahead. -/
def lookaheadLine : Spec.Line := ⟨⟨"S", .star (.ahead (.literal ['a']))⟩, "(&\"a\")*".toList⟩

/-- **A grammar that was read need not be read back.** A character is written as an escape that the
notation does not know, and the text is rejected. A repetition of a lookahead is written without
parentheses, and read as a lookahead for a repetition. -/
theorem read_render_fails :
    (∃ g, Spec.read "S <- \"é\" ;\n" = .ok g ∧ ∀ other, Spec.read g.render ≠ .ok other) ∧
      ∃ g other, Spec.read "S <- (&\"a\")* ;\n" = .ok g ∧ Spec.read g.render = .ok other ∧
        g ≠ other := by
  constructor
  · obtain ⟨g, hb, hrender⟩ : ∃ g, Grammar.build ([accentedLine].map Spec.Line.definition) = .ok g ∧
        g.render = "S <- \"\\u00e9\" ;\n" :=
      ⟨_, rfl, by decide +kernel⟩
    have hline : ∀ {ctx rule}, Spec.Notation ctx rule → accentedLine.Reads ctx rule := by
      intro ctx rule hn
      refine ⟨by decide, Spec.standsFor_of_spelled hn (Spec.Operand.spelled hn ?_)⟩
      refine .of_kind hn 1 rfl rfl rfl fun hat _ => hn.parsed_string (f := fun c => [c]) ?_ hat
      exact List.forall_mem_singleton.2 (.plain (by decide) (by decide))
    have hread := Spec.read_lines hb fun hn => List.forall_mem_singleton.2 (hline hn)
    refine ⟨g, hread, ?_⟩
    rw [hrender]
    refine Spec.read_ne_ok (by decide) fun hn hat => ?_
    refine hn.misses_bodiless (show isIdentifier ['S'] = true from rfl) hat rfl ?_
    exact hn.misses_escaped (c := 'u') (by decide) hat.next.next.next.next.next
  · obtain ⟨g, other, hb, hb', hrender, hne⟩ : ∃ g other,
        Grammar.build ([lookaheadLine].map Spec.Line.definition) = .ok g ∧
        Grammar.build [⟨"S", .ahead (.star (.literal ['a']))⟩] = .ok other ∧
        g.render = other.render ∧ g ≠ other :=
      ⟨_, _, rfl, rfl, by decide +kernel, by decide⟩
    have hline : ∀ {ctx rule}, Spec.Notation ctx rule → lookaheadLine.Reads ctx rule := by
      intro ctx rule hn
      have hoperand : Spec.Operand ctx rule (Expr.literal ['a']).render (.literal ['a']) :=
        Spec.operand_literal hn (List.forall_mem_singleton.2 rfl)
      rw [Expr.render] at hoperand
      have hahead := (hoperand.spelled hn).before hn (d := '&') (by decide) rfl
      have hstar := ((Spec.standsFor_of_spelled hn hahead).parens hn).after hn (d := '*') (by decide) rfl
      exact ⟨by decide, Spec.standsFor_of_spelled hn (hstar.spelled hn)⟩
    have hread := Spec.read_lines hb fun hn => List.forall_mem_singleton.2 (hline hn)
    have hp : ∀ definition ∈ [Definition.mk "S" (.ahead (.star (.literal ['a'])))],
        definition.Printable := by
      refine List.forall_mem_singleton.2 ⟨by decide, ?_⟩
      simp [Expr.Each, Expr.Writable, Expr.star, Expr.isLookahead]
      decide
    refine ⟨g, other, hread, ?_, hne⟩
    rw [hrender, render_eq_of_printable hb' hp]
    exact Spec.read_definitions hb' hp

end Packrat
