import PegScribe.Expr
import PegScribe.Proofs.Quoting

/-!
Wording: lines in the notation of parsing expressions, and the characters that they are written with.

A line is made of items with gaps and bars between them. An item is a literal, the name of a rule, a pair
of parentheses with nothing or with a line inside, or nothing at all; marks come after it. A line is
known from its characters (`Line.chars_injective`): the first character tells what sort of item comes, and
each item tells where it ends.
-/
namespace PegScribe

/-- Repetitions that mean something. -/
def Repetition.Known : Repetition → Prop
  | .unknown _ => False
  | _ => True

namespace Wording

/-- The marks of repetitions. -/
def isMark (c : Char) : Bool := c = '?' || c = '*' || c = '+'

/-- Characters that mean nothing in the notation, as those of words do. -/
def isPlain (c : Char) : Bool := !isMark c && c ∉ [' ', '/', '(', ')', '\'', '"']

/-- Rules whose names stand out from the rest of the notation, and tell them apart. -/
structure Vocabulary where
  keys : RuleKey → Prop
  shown : ∀ k, keys k → k.unshown = none
  named : ∀ k, keys k → k.label ≠ ""
  plain : ∀ k, keys k → ∀ c ∈ k.label.toList, isPlain c = true
  distinct : ∀ k k', keys k → keys k' → k.label = k'.label → k = k'

/-! ### Lines -/

/-- The mark of a repetition. -/
abbrev Mark := { how : Repetition // how.Known }

/-- What separates two items. -/
inductive Sep where
  | gap | bar

mutual

/-- What an item is before its marks. -/
inductive Head (v : Vocabulary) where
  | literal (text : String)
  | rule (key : { k // v.keys k })
  /-- An empty pair of parentheses. -/
  | unit
  /-- Nothing is written. -/
  | blank
  /-- A line of two or more items between parentheses. -/
  | group (first : Item v) (sep : Sep) (rest : Line v)

/-- An item with its marks, from left to right. -/
inductive Item (v : Vocabulary) where
  | mk (head : Head v) (marks : List Mark)

/-- Items with separators between them. -/
inductive Line (v : Vocabulary) where
  | last (item : Item v)
  | more (item : Item v) (sep : Sep) (rest : Line v)

end

variable {v : Vocabulary}

/-! ### The characters of a line -/

/-- The character of a mark. -/
def Mark.char : Mark → Char
  | ⟨.optional, _⟩ => '?'
  | ⟨.zeroOrMore, _⟩ => '*'
  | ⟨.oneOrMore, _⟩ => '+'

/-- The characters of a separator. -/
def Sep.chars : Sep → List Char
  | .gap => [' ']
  | .bar => [' ', '/', ' ']

mutual

/-- The characters of the head of an item. -/
def Head.chars : Head v → List Char
  | .literal t => (Text.quote t).toList
  | .rule key => key.1.label.toList
  | .unit => ['(', ')']
  | .blank => []
  | .group first sep rest => '(' :: (first.chars ++ (sep.chars ++ (rest.chars ++ [')'])))

/-- The characters of an item. -/
def Item.chars : Item v → List Char
  | .mk head marks => head.chars ++ marks.map Mark.char

/-- The characters of a line. -/
def Line.chars : Line v → List Char
  | .last item => item.chars
  | .more item sep rest => item.chars ++ (sep.chars ++ rest.chars)

end

/-! ### Reading a line back -/

/-- Nothing follows, or something that starts with such a character. -/
def Starts (p : Char → Prop) (rest : List Char) : Prop := ∀ c ∈ rest.head?, p c

theorem Starts.mono {p q : Char → Prop} {rest : List Char} (h : Starts p rest)
    (himp : ∀ c, p c → q c) : Starts q rest :=
  fun c hc => himp c (h c hc)

theorem starts_cons {p : Char → Prop} {c : Char} (h : p c) (rest : List Char) :
    Starts p (c :: rest) := by
  intro c' hc'
  cases hc'
  exact h

/-- Two runs of characters of a sort at the head of one text are the same, if what follows them is of
another sort. -/
theorem span_cancel {p : Char → Bool} : ∀ {cs cs' rest rest' : List Char},
    (∀ c ∈ cs, p c = true) → (∀ c ∈ cs', p c = true) →
    Starts (p · = false) rest → Starts (p · = false) rest' →
    cs ++ rest = cs' ++ rest' → cs = cs' ∧ rest = rest'
  | [], [], _, _, _, _, _, _, h => ⟨rfl, h⟩
  | [], c :: cs', rest, rest', _, hcs', hrest, _, h => by
    have hother : p c = false := hrest c (by rw [List.nil_append] at h; rw [h]; rfl)
    rw [hcs' c (List.mem_cons_self ..)] at hother
    cases hother
  | c :: cs, [], rest, rest', hcs, _, _, hrest', h => by
    have hother : p c = false := hrest' c (by rw [List.nil_append] at h; rw [← h]; rfl)
    rw [hcs c (List.mem_cons_self ..)] at hother
    cases hother
  | c :: cs, c' :: cs', rest, rest', hcs, hcs', hrest, hrest', h => by
    obtain ⟨rfl, htail⟩ := List.cons.inj h
    obtain ⟨rfl, hafter⟩ := span_cancel (fun c hc => hcs c (List.mem_cons_of_mem _ hc))
      (fun c hc => hcs' c (List.mem_cons_of_mem _ hc)) hrest hrest' htail
    exact ⟨rfl, hafter⟩

/-- A line ends here: nothing follows, or the closing parenthesis. -/
def LineEnds (rest : List Char) : Prop := Starts (· = ')') rest

/-- An item ends here. -/
def ItemEnds (rest : List Char) : Prop := Starts (fun c => c = ' ' ∨ c = ')') rest

/-- The head of an item ends here. -/
def HeadEnds (rest : List Char) : Prop := Starts (fun c => c = ' ' ∨ c = ')' ∨ isMark c = true) rest

theorem LineEnds.item {rest : List Char} (h : LineEnds rest) : ItemEnds rest :=
  h.mono fun _ => .inr

theorem lineEnds_close (rest : List Char) : LineEnds (')' :: rest) := by
  intro c hc
  cases hc
  rfl

theorem itemEnds_sep (sep : Sep) (rest : List Char) : ItemEnds (sep.chars ++ rest) := by
  cases sep <;> exact starts_cons (.inl rfl) _

theorem Mark.isMark_char (m : Mark) : isMark m.char = true := by
  obtain ⟨how, hknown⟩ := m
  cases how with
  | unknown s => exact hknown.elim
  | _ => rfl

theorem Mark.char_injective {m m' : Mark} (h : m.char = m'.char) : m = m' := by
  obtain ⟨how, hknown⟩ := m
  obtain ⟨how', hknown'⟩ := m'
  cases how <;> cases how' <;> first | rfl | exact hknown.elim | exact hknown'.elim | cases h

theorem isMark_of_mem {marks : List Mark} : ∀ c ∈ marks.map Mark.char, isMark c = true := by
  intro c hc
  obtain ⟨m, -, rfl⟩ := List.mem_map.mp hc
  exact m.isMark_char

/-- Marks are read up to what is none. -/
theorem marks_cancel {marks marks' : List Mark} {rest rest' : List Char} (hrest : ItemEnds rest)
    (hrest' : ItemEnds rest')
    (h : marks.map Mark.char ++ rest = marks'.map Mark.char ++ rest') :
    marks = marks' ∧ rest = rest' := by
  have hnone : ∀ c, c = ' ' ∨ c = ')' → isMark c = false := by rintro c (rfl | rfl) <;> rfl
  obtain ⟨hmarks, hafter⟩ := span_cancel isMark_of_mem isMark_of_mem (hrest.mono hnone)
    (hrest'.mono hnone) h
  exact ⟨(List.map_inj_right fun _ _ => Mark.char_injective).mp hmarks, hafter⟩

theorem ItemEnds.after_marks {rest : List Char} (h : ItemEnds rest) (marks : List Mark) :
    HeadEnds (marks.map Mark.char ++ rest) := by
  cases marks with
  | nil => exact h.mono fun _ => Or.imp_right .inl
  | cons m _ => exact starts_cons (.inr (.inr m.isMark_char)) _

/-- What comes next. -/
inductive Start where
  | quoted | named | opened | ended

/-- What the first character of a text tells. -/
def startOf : List Char → Start
  | [] => .ended
  | c :: _ =>
    if isPlain c then .named
    else if c = '(' then .opened
    else if c = '\'' || c = '"' then .quoted
    else .ended

/-- How the head of an item starts. -/
def Head.start : Head v → Start
  | .literal _ => .quoted
  | .rule _ => .named
  | .unit | .group .. => .opened
  | .blank => .ended

theorem exists_label (key : { k // v.keys k }) :
    ∃ c cs, key.1.label.toList = c :: cs ∧ isPlain c = true := by
  cases hlabel : key.1.label.toList with
  | nil => exact absurd (String.toList_eq_nil_iff.mp hlabel) (v.named _ key.2)
  | cons c cs => exact ⟨c, cs, rfl, v.plain _ key.2 c (by rw [hlabel]; exact List.mem_cons_self ..)⟩

theorem startOf_chars (head : Head v) {rest : List Char} (hrest : HeadEnds rest) :
    startOf (head.chars ++ rest) = head.start := by
  cases head with
  | literal t =>
    rw [Head.chars, Text.toList_quote]
    rcases Text.isQuote_quoteMark t.toList with h | h <;> rw [h] <;> rfl
  | rule key =>
    obtain ⟨c, cs, hlabel, hc⟩ := exists_label key
    rw [Head.chars, hlabel]
    exact if_pos hc
  | unit => rfl
  | blank =>
    cases rest with
    | nil => rfl
    | cons c _ =>
      have hc : c = ' ' ∨ c = ')' ∨ c = '?' ∨ c = '*' ∨ c = '+' := by
        simpa [isMark, or_assoc] using hrest c rfl
      rcases hc with rfl | rfl | rfl | rfl | rfl <;> rfl
  | group first sep rest => rfl

/-- An item never starts with a slash or a closing parenthesis of its own. -/
theorem Item.head_of_chars (item : Item v) {c : Char} (hc : c = '/' ∨ c = ')') {rest : List Char}
    (h : (item.chars ++ rest).head? = some c) : rest.head? = some c := by
  obtain ⟨head, marks⟩ := item
  rw [Item.chars, List.append_assoc] at h
  cases head with
  | literal t =>
    rw [Head.chars, Text.toList_quote] at h
    cases h
    rcases Text.isQuote_quoteMark t.toList with h | h <;> rw [h] at hc <;>
      exact absurd hc (by decide)
  | rule key =>
    obtain ⟨c', cs, hlabel, hc'⟩ := exists_label key
    rw [Head.chars, hlabel] at h
    cases h
    rcases hc with rfl | rfl <;> cases hc'
  | unit => cases h; exact absurd hc (by decide)
  | blank =>
    cases marks with
    | nil => exact h
    | cons m _ =>
      cases h
      have hm := m.isMark_char
      rcases hc with hc | hc <;> rw [hc] at hm <;> cases hm
  | group first sep more => cases h; exact absurd hc (by decide)

theorem Line.head_of_chars (line : Line v) {c : Char} (hc : c = '/' ∨ c = ')') {rest : List Char}
    (h : (line.chars ++ rest).head? = some c) : rest.head? = some c := by
  cases line with
  | last item => exact item.head_of_chars hc h
  | more item sep more =>
    rw [Line.chars, List.append_assoc] at h
    have hsep := item.head_of_chars hc h
    cases sep <;> cases hsep <;> exact absurd hc (by decide)

/-- A gap and a bar are told apart by what follows them. -/
theorem sep_cancel {sep sep' : Sep} {a b : Line v} {rest rest' : List Char} (hrest : LineEnds rest)
    (hrest' : LineEnds rest')
    (h : sep.chars ++ (a.chars ++ rest) = sep'.chars ++ (b.chars ++ rest')) :
    sep = sep' ∧ a.chars ++ rest = b.chars ++ rest' := by
  have hnever : ∀ {line : Line v} {rest more : List Char}, LineEnds rest →
      line.chars ++ rest ≠ '/' :: more := by
    intro line rest more hrest heq
    have hslash := line.head_of_chars (.inl rfl) (show _ = some '/' by rw [heq]; rfl)
    cases hrest '/' hslash
  cases sep <;> cases sep'
  · exact ⟨rfl, List.tail_eq_of_cons_eq h⟩
  · exact absurd (List.tail_eq_of_cons_eq h) (hnever hrest)
  · exact absurd (List.tail_eq_of_cons_eq h).symm (hnever hrest')
  · exact ⟨rfl, List.append_cancel_left h⟩

/-- A line that ends does not go on with a separator. -/
theorem LineEnds.ne_sep {rest : List Char} (h : LineEnds rest) (sep : Sep) (more : List Char) :
    rest ≠ sep.chars ++ more := by
  rintro rfl
  cases sep <;> cases h ' ' rfl

/-- Empty parentheses hold no line. -/
theorem close_ne_item (item : Item v) (sep : Sep) (more rest : List Char) :
    ')' :: rest ≠ item.chars ++ (sep.chars ++ more) := by
  intro h
  have hclose := item.head_of_chars (.inr rfl) (show _ = some ')' by rw [← h]; rfl)
  cases sep <;> cases hclose

mutual

theorem Head.chars_cancel : ∀ {a b : Head v} {rest rest' : List Char}, HeadEnds rest →
    HeadEnds rest' → a.chars ++ rest = b.chars ++ rest' → a = b ∧ rest = rest'
  | a, b, rest, rest', hrest, hrest', h => by
    -- the first character leaves one sort of head, or two where it is a parenthesis
    have hstart : a.start = b.start := by
      rw [← startOf_chars a hrest, h, startOf_chars b hrest']
    cases a with
    | literal t =>
      cases b with
      | literal t' =>
        obtain ⟨rfl, hafter⟩ := Text.quote_cancel h
        exact ⟨rfl, hafter⟩
      | _ => cases hstart
    | rule key =>
      cases b with
      | rule key' =>
        have hends : ∀ c, c = ' ' ∨ c = ')' ∨ isMark c = true → isPlain c = false := by
          rintro c (rfl | rfl | hmark)
          · rfl
          · rfl
          · rw [isPlain, hmark]; rfl
        obtain ⟨hlabel, hafter⟩ := span_cancel (p := isPlain) (v.plain _ key.2) (v.plain _ key'.2)
          (hrest.mono hends) (hrest'.mono hends) h
        obtain rfl := Subtype.ext (v.distinct _ _ key.2 key'.2 (String.toList_inj.mp hlabel))
        exact ⟨rfl, hafter⟩
      | _ => cases hstart
    | unit =>
      cases b with
      | unit => exact ⟨rfl, List.append_cancel_left h⟩
      | group first sep more =>
        simp only [Head.chars, List.cons_append, List.append_assoc, List.nil_append] at h
        exact absurd (List.tail_eq_of_cons_eq h) (close_ne_item _ _ _ _)
      | _ => cases hstart
    | blank =>
      cases b with
      | blank => exact ⟨rfl, h⟩
      | _ => cases hstart
    | group first sep more =>
      cases b with
      | unit =>
        simp only [Head.chars, List.cons_append, List.append_assoc, List.nil_append] at h
        exact absurd (List.tail_eq_of_cons_eq h).symm (close_ne_item _ _ _ _)
      | group first' sep' more' =>
        simp only [Head.chars, List.cons_append, List.append_assoc, List.nil_append] at h
        obtain ⟨rfl, hsep⟩ := Item.chars_cancel (itemEnds_sep _ _) (itemEnds_sep _ _)
          (List.tail_eq_of_cons_eq h)
        obtain ⟨rfl, hmore⟩ := sep_cancel (lineEnds_close _) (lineEnds_close _) hsep
        obtain ⟨rfl, hclose⟩ := Line.chars_cancel (lineEnds_close _) (lineEnds_close _) hmore
        exact ⟨rfl, List.tail_eq_of_cons_eq hclose⟩
      | _ => cases hstart

theorem Item.chars_cancel : ∀ {a b : Item v} {rest rest' : List Char}, ItemEnds rest →
    ItemEnds rest' → a.chars ++ rest = b.chars ++ rest' → a = b ∧ rest = rest'
  | .mk head marks, .mk head' marks', rest, rest', hrest, hrest', h => by
    rw [Item.chars, Item.chars, List.append_assoc, List.append_assoc] at h
    obtain ⟨rfl, hmarks⟩ := Head.chars_cancel (hrest.after_marks _) (hrest'.after_marks _) h
    obtain ⟨rfl, hafter⟩ := marks_cancel hrest hrest' hmarks
    exact ⟨rfl, hafter⟩

theorem Line.chars_cancel : ∀ {a b : Line v} {rest rest' : List Char}, LineEnds rest →
    LineEnds rest' → a.chars ++ rest = b.chars ++ rest' → a = b ∧ rest = rest'
  | .last item, .last item', rest, rest', hrest, hrest', h => by
    obtain ⟨rfl, hafter⟩ := Item.chars_cancel hrest.item hrest'.item h
    exact ⟨rfl, hafter⟩
  | .last item, .more item' sep more, rest, rest', hrest, hrest', h => by
    rw [Line.chars, Line.chars, List.append_assoc, List.append_assoc] at h
    obtain ⟨-, hafter⟩ := Item.chars_cancel hrest.item (itemEnds_sep _ _) h
    exact absurd hafter (hrest.ne_sep _ _)
  | .more item sep more, .last item', rest, rest', hrest, hrest', h => by
    rw [Line.chars, Line.chars, List.append_assoc, List.append_assoc] at h
    obtain ⟨-, hafter⟩ := Item.chars_cancel (itemEnds_sep _ _) hrest'.item h
    exact absurd hafter.symm (hrest'.ne_sep _ _)
  | .more item sep more, .more item' sep' more', rest, rest', hrest, hrest', h => by
    simp only [Line.chars, List.append_assoc] at h
    obtain ⟨rfl, hsep⟩ := Item.chars_cancel (itemEnds_sep _ _) (itemEnds_sep _ _) h
    obtain ⟨rfl, hmore⟩ := sep_cancel hrest hrest' hsep
    obtain ⟨rfl, hafter⟩ := Line.chars_cancel hrest hrest' hmore
    exact ⟨rfl, hafter⟩

end

theorem Line.chars_injective {a b : Line v} (h : a.chars = b.chars) : a = b := by
  have hends : LineEnds [] := nofun
  have hsame : a.chars ++ [] = b.chars ++ [] := by rw [h]
  exact (Line.chars_cancel hends hends hsame).1

end Wording
end PegScribe
