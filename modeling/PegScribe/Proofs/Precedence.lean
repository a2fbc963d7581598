import PegScribe.Proofs.Laws
import PegScribe.Proofs.Termination
import PegScribe.Proofs.Wording

/-!
Precedence: what the notation of an expression says, and when it says what the expression means.

A mark belongs to the item before it, items with gaps between them are a sequence, and bars separate
alternatives. Every expression is written as a line, and it means what the line says as long as no operand
falls apart: no parentheses are written around a sequence or a choice of one part, even if that part is
written as several. Expressions that are written alike then have one line between them, and one meaning
(`written_alike_means_alike`).
-/
namespace PegScribe

/-! ### Expressions as they are written -/

namespace Expr

/-- What is left of a looseness where an operand is called for: parentheses hold it together. -/
def held (e : Expr) (looseness : Nat) : Nat := if e.isCompound then 0 else looseness

mutual

/-- How loosely an expression hangs together as it is written: 0 for one item, 1 for items with gaps
between them, 2 for alternatives. -/
def looseness : Expr → Nat
  | .rep _ body => body.held (looseness body)
  | .seq items => max (if 1 < items.length then 1 else 0) (loosestOperand items)
  | .choice alts => max (if 1 < alts.length then 2 else 0) (loosest alts)
  | _ => 0

/-- The greatest looseness of some operands. -/
def loosestOperand : List Expr → Nat
  | [] => 0
  | e :: rest => max (e.held (looseness e)) (loosestOperand rest)

/-- The greatest looseness of some expressions. -/
def loosest : List Expr → Nat
  | [] => 0
  | e :: rest => max (looseness e) (loosest rest)

end

mutual

/-- No operand falls apart: what is repeated is one item, and the items of a sequence are not
alternatives. -/
def isTight : Expr → Bool
  | .rep _ body => isTight body && body.held body.looseness = 0
  | .seq items => areTight items && (items.length ≤ 1 || loosestOperand items ≤ 1)
  | .choice alts => areTight alts
  | _ => true

/-- All are tight. -/
def areTight : List Expr → Bool
  | [] => true
  | e :: rest => isTight e && areTight rest

end

end Expr

namespace Wording
open Packrat
variable {v : Vocabulary}

/-- Expressions made of literals, references to the rules, sequences, choices and repetitions. -/
inductive Written (v : Vocabulary) : Expr → Prop
  | literal (t : String) : Written v (.literal t)
  | call {key} (h : v.keys key) : Written v (.call key)
  | rep {how body} (hhow : how.Known) (h : Written v body) : Written v (.rep how body)
  | seq {items} (h : ∀ e ∈ items, Written v e) : Written v (.seq items)
  | choice {alts} (h : ∀ e ∈ alts, Written v e) : Written v (.choice alts)

/-! ### What a line says -/

/-- A sequence for each row, and a choice of them. -/
def choiceOf (rows : List Expr × List (List Expr)) : Expr :=
  .choice (.seq rows.1 :: rows.2.map .seq)

/-- Puts an item before rows: at the head of the first, or in a row of its own. -/
def Sep.add (e : Expr) (rows : List Expr × List (List Expr)) : Sep → List Expr × List (List Expr)
  | .gap => (e :: rows.1, rows.2)
  | .bar => ([e], rows.1 :: rows.2)

mutual

/-- What the head of an item is read as. -/
def Head.expr : Head v → Expr
  | .literal t => .literal t
  | .rule key => .call key.1
  | .unit => .seq []
  | .blank => .choice []
  | .group first sep rest => choiceOf (sep.add first.expr rest.rows)

/-- What an item is read as: each mark repeats what is before it. -/
def Item.expr : Item v → Expr
  | .mk head marks => marks.foldl (fun e how => .rep how.1 e) head.expr

/-- The rows between the bars: the first one, and the others. -/
def Line.rows : Line v → List Expr × List (List Expr)
  | .last item => ([item.expr], [])
  | .more item sep rest => sep.add item.expr rest.rows

end

/-- The expression that a line is read as. -/
def Line.expr (line : Line v) : Expr := choiceOf line.rows

/-! ### Making lines longer -/

/-- One line after another. -/
def Line.join : Line v → Sep → Line v → Line v
  | .last item, sep, next => .more item sep next
  | .more item sep rest, sep', next => .more item sep (rest.join sep' next)

/-- A mark after the last item. -/
def Line.mark (how : Mark) : Line v → Line v
  | .last (.mk head marks) => .last (.mk head (marks ++ [how]))
  | .more item sep rest => .more item sep (rest.mark how)

@[simp] theorem Line.chars_join : ∀ (a : Line v) (sep : Sep) (b : Line v),
    (a.join sep b).chars = a.chars ++ (sep.chars ++ b.chars)
  | .last item, sep, b => rfl
  | .more item sep rest, sep', b => by
    simp only [Line.join, Line.chars, rest.chars_join, List.append_assoc]

@[simp] theorem Line.chars_mark (how : Mark) :
    ∀ line : Line v, (line.mark how).chars = line.chars ++ [how.char]
  | .last (.mk head marks) => by simp [Line.mark, Line.chars, Item.chars]
  | .more item sep rest => by simp only [Line.mark, Line.chars, rest.chars_mark, List.append_assoc]

theorem Line.rows_join_bar : ∀ a b : Line v,
    (a.join .bar b).rows = (a.rows.1, a.rows.2 ++ b.rows.1 :: b.rows.2)
  | .last item, b => rfl
  | .more item sep rest, b => by
    cases sep <;> simp [Line.join, Line.rows, Sep.add, rest.rows_join_bar b]

theorem Line.rows_join_gap : ∀ {a : Line v} (b : Line v), a.rows.2 = [] →
    (a.join .gap b).rows = (a.rows.1 ++ b.rows.1, b.rows.2)
  | .last item, b, _ => rfl
  | .more item .gap rest, b, h => by
    simp [Line.join, Line.rows, Sep.add, Line.rows_join_gap b (show rest.rows.2 = [] from h)]

theorem Line.rows_mark (how : Mark) : ∀ line : Line v, line.rows.2 = [] → (line.mark how).rows.2 = []
  | .last (.mk _ _), _ => rfl
  | .more _ .gap rest, h => rest.rows_mark how h

theorem Line.join_eq_more (a : Line v) (sep : Sep) (b : Line v) :
    ∃ item sep' rest, a.join sep b = .more item sep' rest := by
  cases a <;> exact ⟨_, _, _, rfl⟩

theorem toList_mark (how : Mark) : how.1.mark.toList = [how.char] := by
  obtain ⟨how, hknown⟩ := how
  cases how with
  | unknown s => exact hknown.elim
  | _ => simp [Repetition.mark, Mark.char]

/-! ### Expressions have lines -/

section Library
variable [PatternLibrary]

theorem agree_last (item : Item v) : Agree item.expr (Line.last item).expr :=
  (seq_one _).trans (choice_one _)

/-- A line without bars is a sequence. -/
theorem agree_row {line : Line v} (h : line.rows.2 = []) : Agree (.seq line.rows.1) line.expr := by
  unfold Line.expr choiceOf
  rw [h]
  exact choice_one _

/-- The line is how the expression is written, no looser than is said, and means the same if the
expression is tight. -/
structure Reads (e : Expr) (text : String) (looseness : Nat) (line : Line v) : Prop where
  chars : line.chars = text.toList
  single : looseness = 0 → ∃ item, line = .last item
  row : looseness ≤ 1 → line.rows.2 = []
  agree : e.isTight = true → Agree e line.expr

/-- An expression is written as one item. -/
theorem reads_item {e : Expr} {text : String} {item : Item v} (hchars : item.chars = text.toList)
    (hagree : e.isTight = true → Agree e item.expr) (n : Nat) : Reads e text n (.last item) where
  chars := hchars
  single := fun _ => ⟨item, rfl⟩
  row := fun _ => rfl
  agree := fun htight => (hagree htight).trans (agree_last item)

/-- The expression is written as some line, of more than one item where parentheses would be put
around it. -/
def Legible (v : Vocabulary) (e : Expr) : Prop :=
  ∃ (text : String) (line : Line v), e.format = .ok text ∧ Reads e text e.looseness line ∧
    (e.isCompound = true → ∃ item sep rest, line = .more item sep rest)

/-- As an operand, too, the expression is written as some line. -/
theorem Legible.operand {e : Expr} (h : Legible v e) : ∃ (text : String) (line : Line v),
    e.format = .ok text ∧ Reads e (e.parenthesize text) (e.held e.looseness) line := by
  obtain ⟨text, line, hformat, hreads, hcompound⟩ := h
  refine ⟨text, ?_⟩
  unfold Expr.parenthesize Expr.held
  by_cases he : e.isCompound = true
  · obtain ⟨first, sep, rest, rfl⟩ := hcompound he
    rw [if_pos he, if_pos he]
    refine ⟨.last (.mk (.group first sep rest) []), hformat, reads_item ?_ hreads.agree 0⟩
    have hchars : first.chars ++ (sep.chars ++ rest.chars) = text.toList := hreads.chars
    simp [Item.chars, Head.chars, ← hchars]
  · rw [if_neg he, if_neg he]
    exact ⟨line, hformat, hreads⟩

/-- An expression that is written as an item without marks. -/
theorem legible_head {e : Expr} {text : String} (head : Head v) (hformat : e.format = .ok text)
    (hchars : head.chars = text.toList) (hexpr : head.expr = e) (hone : e.isCompound = false) :
    Legible v e := by
  refine ⟨text, .last (.mk head []), hformat, reads_item ?_ (fun _ => ?_) _, ?_⟩
  · rw [Item.chars, List.map_nil, List.append_nil, hchars]
  · rw [← hexpr]
    exact Agree.refl _
  · intro hcompound
    rw [hone] at hcompound
    cases hcompound

theorem legible_call {key : RuleKey} (h : v.keys key) : Legible v (.call key) := by
  refine legible_head (.rule ⟨key, h⟩) ?_ rfl rfl rfl
  rw [Expr.format, RuleKey.format, v.shown key h]

theorem legible_rep {how : Repetition} {body : Expr} (hhow : how.Known) (h : Legible v body) :
    Legible v (.rep how body) := by
  obtain ⟨text, line, hformat, hreads⟩ := h.operand
  refine ⟨body.parenthesize text ++ how.mark, line.mark ⟨how, hhow⟩, ?_, ⟨?_, ?_, ?_, ?_⟩, nofun⟩
  · rw [Expr.format, hformat]; rfl
  · rw [Line.chars_mark, hreads.chars, String.toList_append, ← toList_mark]
  · intro hloose
    obtain ⟨⟨head, marks⟩, rfl⟩ := hreads.single hloose
    exact ⟨_, rfl⟩
  · exact fun hloose => line.rows_mark _ (hreads.row hloose)
  · intro htight
    rw [Expr.isTight, Bool.and_eq_true, decide_eq_true_eq] at htight
    obtain ⟨⟨head, marks⟩, rfl⟩ := hreads.single htight.2
    have hitem : Agree body (Item.mk head marks).expr :=
      (hreads.agree htight.1).trans (agree_last _).symm
    have hmarked : (Item.mk head (marks ++ [⟨how, hhow⟩])).expr =
        .rep how (Item.mk head marks).expr := by
      simp [Item.expr]
    exact (hitem.rep how).trans (hmarked ▸ agree_last _)

/-- Operands with gaps between them are written as a line, and their sequence is its row if none of
them shows a bar. -/
theorem legible_row : ∀ {e : Expr} {rest : List Expr}, (∀ e' ∈ e :: rest, Legible v e') →
    ∃ (text : String) (texts : List String) (line : Line v),
      Expr.formatAtoms (e :: rest) = .ok (text :: texts) ∧
      line.chars = (Text.join " " (text :: texts)).toList ∧
      (rest ≠ [] → ∃ item sep more, line = .more item sep more) ∧
      (Expr.loosestOperand (e :: rest) ≤ 1 → line.rows.2 = [] ∧
        (Expr.areTight (e :: rest) = true → Agree (.seq (e :: rest)) (.seq line.rows.1)))
  | e, [], h => by
    obtain ⟨text, line, hformat, hreads⟩ := (h e (List.mem_cons_self ..)).operand
    refine ⟨e.parenthesize text, [], line, ?_, ?_, fun hne => absurd rfl hne, fun hloose => ?_⟩
    · rw [Expr.formatAtoms, hformat]; rfl
    · rw [hreads.chars, Text.join, String.intercalate_singleton]
    · have hrow := hreads.row (by simpa [Expr.loosestOperand] using hloose)
      refine ⟨hrow, fun htight => ?_⟩
      have he : e.isTight = true := by simpa [Expr.areTight] using htight
      exact (seq_one e).symm.trans ((hreads.agree he).trans (agree_row hrow).symm)
  | e, e' :: rest, h => by
    obtain ⟨text, line, hformat, hreads⟩ := (h e (List.mem_cons_self ..)).operand
    obtain ⟨text', texts, line', hformat', hchars', -, hrows'⟩ :=
      legible_row fun e'' he'' => h e'' (List.mem_cons_of_mem _ he'')
    refine ⟨e.parenthesize text, text' :: texts, line.join .gap line', ?_, ?_,
      fun _ => line.join_eq_more .gap line', fun hloose => ?_⟩
    · rw [Expr.formatAtoms, hformat, hformat']; rfl
    · simp [hreads.chars, hchars', Text.join, Sep.chars]
    · rw [Expr.loosestOperand, Nat.max_le] at hloose
      have hrow := hreads.row hloose.1
      obtain ⟨hrow', hagree'⟩ := hrows' hloose.2
      rw [Line.rows_join_gap _ hrow]
      refine ⟨hrow', fun htight => ?_⟩
      rw [Expr.areTight, Bool.and_eq_true] at htight
      have hfirst : Agree (.seq [e]) (.seq line.rows.1) :=
        (seq_one e).symm.trans ((hreads.agree htight.1).trans (agree_row hrow).symm)
      exact hfirst.seq_append (hagree' htight.2)

/-- Alternatives with bars between them are written as a line, and their choice is what it says. -/
theorem legible_alternatives : ∀ {e : Expr} {rest : List Expr}, (∀ e' ∈ e :: rest, Legible v e') →
    ∃ (text : String) (texts : List String) (line : Line v),
      Expr.formatAll (e :: rest) = .ok (text :: texts) ∧
      line.chars = (Text.join " / " (text :: texts)).toList ∧
      (rest ≠ [] → ∃ item sep more, line = .more item sep more) ∧
      (Expr.areTight (e :: rest) = true → Agree (.choice (e :: rest)) line.expr)
  | e, [], h => by
    obtain ⟨text, line, hformat, hreads, -⟩ := h e (List.mem_cons_self ..)
    refine ⟨text, [], line, ?_, ?_, fun hne => absurd rfl hne, fun htight => ?_⟩
    · rw [Expr.formatAll, hformat]; rfl
    · rw [hreads.chars, Text.join, String.intercalate_singleton]
    · have he : e.isTight = true := by simpa [Expr.areTight] using htight
      exact (choice_one e).symm.trans (hreads.agree he)
  | e, e' :: rest, h => by
    obtain ⟨text, line, hformat, hreads, -⟩ := h e (List.mem_cons_self ..)
    obtain ⟨text', texts, line', hformat', hchars', -, hagree'⟩ :=
      legible_alternatives fun e'' he'' => h e'' (List.mem_cons_of_mem _ he'')
    refine ⟨text, text' :: texts, line.join .bar line', ?_, ?_,
      fun _ => line.join_eq_more .bar line', fun htight => ?_⟩
    · rw [Expr.formatAll, hformat, hformat']; rfl
    · simp [hreads.chars, hchars', Text.join, Sep.chars]
    · rw [Expr.areTight, Bool.and_eq_true] at htight
      have hfirst : Agree (.choice [e]) line.expr :=
        (choice_one e).symm.trans (hreads.agree htight.1)
      have hjoin : (line.join .bar line').expr = .choice
          ((.seq line.rows.1 :: line.rows.2.map .seq) ++
            (.seq line'.rows.1 :: line'.rows.2.map .seq)) := by
        unfold Line.expr choiceOf
        rw [Line.rows_join_bar]
        simp
      rw [hjoin]
      exact hfirst.choice_append (hagree' htight.2)

theorem legible_seq {items : List Expr} (h : ∀ e ∈ items, Legible v e) : Legible v (.seq items) := by
  match items, h with
  | [], _ => exact legible_head .unit rfl (by simp [Head.chars]) rfl rfl
  | [e], h =>
    obtain ⟨text, line, hformat, hreads⟩ := (h e (List.mem_cons_self ..)).operand
    have hloose : (Expr.seq [e]).looseness = e.held e.looseness := by
      simp [Expr.looseness, Expr.loosestOperand]
    refine ⟨e.parenthesize text, line, ?_, ⟨hreads.chars, ?_, ?_, fun htight => ?_⟩, nofun⟩
    · simp [Expr.format, Expr.formatAtoms, hformat, Text.join, bind, Except.bind, pure, Except.pure]
    · rw [hloose]; exact hreads.single
    · rw [hloose]; exact hreads.row
    · have he : e.isTight = true := by simpa [Expr.isTight, Expr.areTight] using htight
      exact (seq_one e).symm.trans (hreads.agree he)
  | e :: e' :: rest, h =>
    obtain ⟨text, texts, line, hformat, hchars, hmore, hrows⟩ := legible_row h
    have hloose : (Expr.seq (e :: e' :: rest)).looseness =
        max 1 (Expr.loosestOperand (e :: e' :: rest)) := by
      simp [Expr.looseness]
    refine ⟨Text.join " " (text :: texts), line, ?_, ⟨hchars, ?_, ?_, fun htight => ?_⟩,
      fun _ => hmore (by simp)⟩
    · rw [Expr.format, hformat]
      · rfl
      · nofun
    · rw [hloose]; intro hzero; omega
    · rw [hloose]; exact fun hrow => (hrows (by omega)).1
    · have hparts : Expr.areTight (e :: e' :: rest) = true ∧
          Expr.loosestOperand (e :: e' :: rest) ≤ 1 := by
        simpa [Expr.isTight] using htight
      obtain ⟨hrow, hagree⟩ := hrows hparts.2
      exact (hagree hparts.1).trans (agree_row hrow)

theorem legible_choice {alts : List Expr} (h : ∀ e ∈ alts, Legible v e) :
    Legible v (.choice alts) := by
  match alts, h with
  | [], _ => exact legible_head .blank rfl (by simp [Head.chars, Text.join]) rfl rfl
  | [e], h =>
    obtain ⟨text, line, hformat, hreads, -⟩ := h e (List.mem_cons_self ..)
    have hloose : (Expr.choice [e]).looseness = e.looseness := by
      simp [Expr.looseness, Expr.loosest]
    refine ⟨text, line, ?_, ⟨hreads.chars, ?_, ?_, fun htight => ?_⟩, nofun⟩
    · simp [Expr.format, Expr.formatAll, hformat, Text.join, bind, Except.bind, pure, Except.pure]
    · rw [hloose]; exact hreads.single
    · rw [hloose]; exact hreads.row
    · have he : e.isTight = true := by simpa [Expr.isTight, Expr.areTight] using htight
      exact (choice_one e).symm.trans (hreads.agree he)
  | e :: e' :: rest, h =>
    obtain ⟨text, texts, line, hformat, hchars, hmore, hagree⟩ := legible_alternatives h
    have hloose : 2 ≤ (Expr.choice (e :: e' :: rest)).looseness := by
      rw [Expr.looseness, if_pos (by simp)]
      exact Nat.le_max_left ..
    refine ⟨Text.join " / " (text :: texts), line, ?_, ⟨hchars, ?_, ?_, fun htight => ?_⟩,
      fun _ => hmore (by simp)⟩
    · rw [Expr.format, hformat]; rfl
    · intro hzero; omega
    · intro hrow; omega
    · exact hagree htight

theorem legible_of_written {e : Expr} (h : Written v e) : Legible v e := by
  induction h with
  | literal t => exact legible_head (.literal t) rfl rfl rfl rfl
  | call h => exact legible_call h
  | rep hhow _ ih => exact legible_rep hhow ih
  | seq _ ih => exact legible_seq ih
  | choice _ ih => exact legible_choice ih

/-! ### Expressions that are written alike -/

/-- A grammar that defines the rules links what is written with them. -/
theorem Written.linked {g : Grammar} {patterns : PatternTable} {e : Expr} (h : Written v e)
    (hkeys : ∀ k, v.keys k → ∃ body, g.rules.get? k = some body) : e.Linked g patterns := by
  induction h with
  | literal t => exact .literal t
  | call h => obtain ⟨body, hbody⟩ := hkeys _ h; exact .call hbody
  | @rep how _ hhow _ ih =>
    cases how with
    | optional => exact .optional ih
    | zeroOrMore => exact .zeroOrMore ih
    | oneOrMore => exact .oneOrMore ih
    | unknown s => exact hhow.elim
  | seq _ ih => exact .seq ih
  | choice _ ih => exact .choice ih

/-- Just one line is written as the expression is, and it says what a tight expression means. -/
theorem Written.reads_back {e : Expr} (he : Written v e) : ∃ line : Line v,
    (∀ line' : Line v, e.format = .ok (String.ofList line'.chars) ↔ line' = line) ∧
      (e.isTight = true → Agree e line.expr) := by
  obtain ⟨text, line, hformat, hreads, -⟩ := legible_of_written he
  refine ⟨line, fun line' => ⟨fun h => ?_, ?_⟩, hreads.agree⟩
  · have htext : text = String.ofList line'.chars := Except.ok.inj (hformat.symm.trans h)
    apply Line.chars_injective
    rw [hreads.chars, htext, String.toList_ofList]
  · rintro rfl
    rw [hformat, hreads.chars, String.ofList_toList]

/-- Expressions that are written alike mean the same, if no operand falls apart: with some more depth
each answers as the other does and leaves the same behind, in every grammar. What they mean is what their
one line says. So in every linked grammar that defines their rules they come to one result, on every text
and from every place. -/
theorem written_alike_means_alike (v : Vocabulary) (e e' : Expr) (he : Written v e) (he' : Written v e')
    (htight : e.isTight = true) (htight' : e'.isTight = true) (h : e.format = e'.format) :
    Agree e e' ∧
    (∃ line : Line v, (∀ line' : Line v, e.format = .ok (String.ofList line'.chars) ↔ line' = line) ∧
      Agree e line.expr) ∧
    ∀ (g : Grammar) (patterns : PatternTable) (text : Array Char) (pos : Int),
      g.Linked patterns → (∀ k, v.keys k → ∃ body, g.rules.get? k = some body) →
      ∃ m r d₀, ∀ d ≥ d₀, eval g text d e pos { patterns } = .ok (m, r) ∧
        eval g text d e' pos { patterns } = .ok (m, r) := by
  obtain ⟨line, hline, hmeans⟩ := he.reads_back
  obtain ⟨line', hline', hmeans'⟩ := he'.reads_back
  obtain rfl : line' = line := (hline line').mp (h.trans ((hline' line').mpr rfl))
  have hagree : Agree e e' := (hmeans htight).trans (hmeans' htight').symm
  refine ⟨hagree, ⟨line', hline, hmeans htight⟩, fun g patterns text pos hg hkeys => ?_⟩
  obtain ⟨m, r, htries⟩ := tries_of_linked hg (he.linked hkeys) text pos
  obtain ⟨d, hd⟩ := reaches_of_tries htries (movesOnward_start patterns)
  obtain ⟨extra, hextra⟩ := hagree.there
  refine ⟨m, r, d + extra, fun d' hd' => ⟨?_, ?_⟩⟩
  · exact (eval_extends g text (by omega) e pos).of_ok hd
  · exact (eval_extends g text hd' e' pos).of_ok ((hextra g text d pos).of_ok hd)

end Library

/-- One rule by the name of `x`. -/
def justX : Vocabulary where
  keys := (· = .plain "x")
  shown := by rintro _ rfl; rfl
  named := by rintro _ rfl; decide
  plain := by
    rintro _ rfl c hc
    obtain rfl : c = 'x' := by simpa [RuleKey.plain] using hc
    decide
  distinct := by rintro _ _ rfl rfl _; rfl

/-- A choice inside a choice. -/
def grouped : Expr :=
  .choice [.choice [.literal "a", .call (.plain "x")],
    .rep .optional (.seq [.literal "b", .call (.plain "x")])]

/-- The same alternatives side by side. -/
def ungrouped : Expr :=
  .choice [.literal "a", .call (.plain "x"),
    .rep .optional (.seq [.literal "b", .call (.plain "x")])]

/-- The rule `x` is a `c`. -/
def cForX : Grammar where
  rules := ⟨[(.plain "x", .literal "c")]⟩

theorem written_alike_means_alike_grouped :
    grouped.format = .ok "'a' / x / ('b' x)?" ∧ ungrouped.format = .ok "'a' / x / ('b' x)?" ∧
    Agree grouped ungrouped ∧
    ∃ m r d₀, ∀ d ≥ d₀, eval cForX #['b', 'c'] d grouped 0 {} = .ok (m, r) ∧
      eval cForX #['b', 'c'] d ungrouped 0 {} = .ok (m, r) := by
  have hgrouped : grouped.format = .ok "'a' / x / ('b' x)?" := by decide +kernel
  have hungrouped : ungrouped.format = .ok "'a' / x / ('b' x)?" := by decide +kernel
  have ha : Written justX (.literal "a") := .literal "a"
  have hx : Written justX (.call (.plain "x")) := .call rfl
  have hopt : Written justX (.rep .optional (.seq [.literal "b", .call (.plain "x")])) :=
    .rep trivial (.seq (by simpa using ⟨Written.literal "b", hx⟩))
  have he : Written justX grouped := .choice (by simpa using ⟨.choice (by simpa using ⟨ha, hx⟩), hopt⟩)
  have he' : Written justX ungrouped := .choice (by simpa using ⟨ha, hx, hopt⟩)
  have hlinked : cForX.Linked {} := by
    intro key body h
    have hmem := Ledger.mem_entries_of_get? h
    simp only [cForX, List.mem_singleton, Prod.mk.injEq] at hmem
    rw [hmem.2]
    exact .literal "c"
  obtain ⟨hagree, -, hresult⟩ := written_alike_means_alike justX grouped ungrouped he he' (by decide)
    (by decide) (hgrouped.trans hungrouped.symm)
  exact ⟨hgrouped, hungrouped, hagree,
    hresult cForX {} #['b', 'c'] 0 hlinked (by rintro _ rfl; exact ⟨_, rfl⟩)⟩

/-- No rules. -/
def noRules : Vocabulary := ⟨fun _ => False, nofun, nofun, nofun, nofun⟩

/-- Any number of `ab`, as a choice of one alternative. -/
def starred : Expr := .rep .zeroOrMore (.choice [.seq [.literal "a", .literal "b"]])

/-- An `a` and any number of `b`. -/
def spread : Expr := .seq [.literal "a", .rep .zeroOrMore (.literal "b")]

/-- Where an expression that is tried at the start of `abab` ends. -/
def endInAbab (depth : Nat) (e : Expr) : Option Int :=
  match eval {} #['a', 'b', 'a', 'b'] depth e 0 {} with
  | .ok (some (stop, _), _) => some stop
  | _ => none

theorem endInAbab_mono {d d' : Nat} {e : Expr} {stop : Int} (hle : d ≤ d')
    (h : endInAbab d e = some stop) : endInAbab d' e = some stop := by
  unfold endInAbab at h
  split at h
  · rename_i hok
    cases h
    unfold endInAbab
    rw [(eval_extends _ _ hle e 0).of_ok hok]
  · cases h

/-- Without the condition it fails: a choice of one alternative gets no parentheses, so the star seems to
belong to the `b` alone. -/
theorem one_alternative_falls_apart :
    Written noRules starred ∧ Written noRules spread ∧
    starred.format = .ok "'a' 'b'*" ∧ spread.format = .ok "'a' 'b'*" ∧
    (∀ d ≥ 5, endInAbab d starred = some 4) ∧ ∀ d ≥ 5, endInAbab d spread = some 2 := by
  have hab : Written noRules (.seq [.literal "a", .literal "b"]) :=
    .seq (by simpa using ⟨Written.literal "a", Written.literal "b"⟩)
  have hstarred : Written noRules starred := .rep trivial (.choice (by simpa using hab))
  have hspread : Written noRules spread :=
    .seq (by simpa using ⟨Written.literal "a", .rep trivial (.literal "b")⟩)
  have hfour : endInAbab 5 starred = some 4 := by decide +kernel
  have htwo : endInAbab 5 spread = some 2 := by decide +kernel
  exact ⟨hstarred, hspread, by decide +kernel, by decide +kernel,
    fun _ hd => endInAbab_mono hd hfour, fun _ hd => endInAbab_mono hd htwo⟩

end Wording
end PegScribe
