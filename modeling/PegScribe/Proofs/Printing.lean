import Mathlib.Data.List.Forall2
import PegScribe.Ir.Syntax

/-!
Printing: descriptions of instructions, and the texts that they are printed as.

A description says of each instruction which lexemes it has. It is printed as these lexemes with gaps of
white space before, between and after them. Only between the type of a stored value, when it has no star,
and a number that starts with a digit must the gap hold something (`Instr.apart`); everywhere else two
lexemes may touch.
-/
namespace PegScribe

/-- The token of a lexeme that stands after the given text. -/
def Token.after (before lexeme : String) : Token where
  text := lexeme
  start := before.length
  stop := before.length + lexeme.length
  line := before.toList.count '\n' + 1
  col := (before.toList.reverse.takeWhile (· != '\n')).length + 1

namespace Ir

/-! ### Lexemes -/

/-- The lexemes that are always written alike. -/
inductive Word where
  | equal | comma | star | align | alloca | load | store
  deriving DecidableEq

/-- How a word is written. -/
def Word.text : Word → String
  | .equal => "="
  | .comma => ","
  | .star => "*"
  | .align => "align"
  | .alloca => "alloca"
  | .load => "load"
  | .store => "store"

/-- The kinds of lexemes. -/
inductive Kind where
  | word (w : Word)
  /-- The digits of an alignment. -/
  | digits
  /-- The name of a type. -/
  | type
  /-- A number, which may have a sign. -/
  | number
  /-- The name of a value. -/
  | name
  deriving DecidableEq

/-- Characters of names after the first. -/
def isNameChar (c : Char) : Bool := c.isAlphanum || c = '-' || c = '$' || c = '.' || c = '_'

/-- One or more characters that pass the test. -/
def some? (test : Char → Bool) (cs : List Char) : Bool := cs ≠ [] && cs.all test

/-- Are these the characters of a lexeme of the kind? -/
def Kind.fits : Kind → List Char → Bool
  | .word w, cs => cs = w.text.toList
  | .digits, cs => some? Char.isDigit cs
  | .type, c :: cs => c = 'i' && some? Char.isDigit cs
  | .number, c :: cs => if c = '-' then some? Char.isDigit cs else some? Char.isDigit (c :: cs)
  | .name, c :: cs => (c = '%' || c = '@') && some? isNameChar cs
  | _, [] => false

/-! ### Instructions -/

/-- A type: its name, and its star if it is the type of a pointer. -/
structure Ty (α : Type) where
  name : α
  star : Option α
  deriving DecidableEq

/-- What is stored: a value by its name, or a number. -/
inductive Operand (α : Type) where
  | name (lexeme : α)
  | number (lexeme : α)
  deriving DecidableEq

/-- Instructions, over any sort of lexemes. -/
inductive Instr (α : Type) where
  | alloca (result equal keyword : α) (type : Ty α) (comma align alignment : α)
  | load (result equal keyword : α) (type : Ty α) (pointer comma align alignment : α)
  | store (keyword : α) (type : Ty α) (value : Operand α) (comma : α) (pointerType : Ty α)
    (pointer comma' align alignment : α)
  deriving DecidableEq

section
variable {α β : Type}

/-- The lexemes of a type, each with its kind. -/
def Ty.pieces (t : Ty α) : List (Kind × α) :=
  (.type, t.name) :: t.star.toList.map fun star => (.word .star, star)

/-- The type with other lexemes. -/
def Ty.map (f : α → β) (t : Ty α) : Ty β := ⟨f t.name, t.star.map f⟩

/-- The lexeme of an operand with its kind. -/
def Operand.piece : Operand α → Kind × α
  | .name lexeme => (.name, lexeme)
  | .number lexeme => (.number, lexeme)

/-- The operand with another lexeme. -/
def Operand.map (f : α → β) : Operand α → Operand β
  | .name lexeme => .name (f lexeme)
  | .number lexeme => .number (f lexeme)

namespace Instr

/-- The lexemes of an instruction from left to right, each with its kind. -/
def pieces : Instr α → List (Kind × α)
  | .alloca result equal keyword type comma align alignment =>
    [(.name, result), (.word .equal, equal), (.word .alloca, keyword)] ++ type.pieces ++
      [(.word .comma, comma), (.word .align, align), (.digits, alignment)]
  | .load result equal keyword type pointer comma align alignment =>
    [(.name, result), (.word .equal, equal), (.word .load, keyword)] ++ type.pieces ++
      [(.name, pointer), (.word .comma, comma), (.word .align, align), (.digits, alignment)]
  | .store keyword type value comma pointerType pointer comma' align alignment =>
    [(.word .store, keyword)] ++ type.pieces ++ [value.piece, (.word .comma, comma)] ++
      pointerType.pieces ++
      [(.name, pointer), (.word .comma, comma'), (.word .align, align), (.digits, alignment)]

/-- The lexemes of an instruction from left to right. -/
def lexemes (i : Instr α) : List α := i.pieces.map (·.2)

/-- The instruction with other lexemes. -/
def map (f : α → β) : Instr α → Instr β
  | .alloca result equal keyword type comma align alignment =>
    .alloca (f result) (f equal) (f keyword) (type.map f) (f comma) (f align) (f alignment)
  | .load result equal keyword type pointer comma align alignment =>
    .load (f result) (f equal) (f keyword) (type.map f) (f pointer) (f comma) (f align)
      (f alignment)
  | .store keyword type value comma pointerType pointer comma' align alignment =>
    .store (f keyword) (type.map f) (value.map f) (f comma) (pointerType.map f) (f pointer)
      (f comma') (f align) (f alignment)

theorem pieces_map (f : α → β) (i : Instr α) :
    (i.map f).pieces = i.pieces.map fun p => (p.1, f p.2) := by
  have htype : ∀ t : Ty α, (t.map f).pieces = t.pieces.map fun p => (p.1, f p.2) := by
    rintro ⟨name, _ | star⟩ <;> rfl
  have hvalue : ∀ v : Operand α, (v.map f).piece = (v.piece.1, f v.piece.2) := by
    rintro (lexeme | lexeme) <;> rfl
  cases i <;> simp [map, pieces, htype, hvalue]

theorem exists_type {f : β → α} {t : Ty α} {ts : List β}
    (h : ts.map f = t.pieces.map (·.2)) : ∃ u : Ty β, u.map f = t ∧ u.pieces.map (·.2) = ts := by
  rcases t with ⟨name, _ | star⟩
  · simp only [Ty.pieces, Option.toList_none, List.map_cons, List.map_nil, List.map_eq_cons_iff,
      List.map_eq_nil_iff] at h
    obtain ⟨name, _, rfl, rfl, rfl⟩ := h
    exact ⟨⟨name, none⟩, rfl, rfl⟩
  · simp only [Ty.pieces, Option.toList_some, List.map_cons, List.map_nil, List.map_eq_cons_iff,
      List.map_eq_nil_iff] at h
    obtain ⟨name, _, rfl, rfl, star, _, rfl, rfl, rfl⟩ := h
    exact ⟨⟨name, some star⟩, rfl, rfl⟩

theorem exists_operand {f : β → α} {v : Operand α} {t : β} (h : f t = v.piece.2) :
    ∃ u : Operand β, u.map f = v ∧ u.piece.2 = t := by
  cases v with
  | name lexeme => exact ⟨.name t, congrArg Operand.name h, rfl⟩
  | number lexeme => exact ⟨.number t, congrArg Operand.number h, rfl⟩

/-- Lexemes of another sort can be put in the places of an instruction's. -/
theorem exists_map_eq {f : β → α} {i : Instr α} {ts : List β} (h : ts.map f = i.lexemes) :
    ∃ j : Instr β, j.map f = i ∧ j.lexemes = ts := by
  cases i with
  | alloca =>
    simp only [lexemes, pieces, List.map_append, List.map_cons, List.map_nil,
      List.map_eq_append_iff, List.map_eq_cons_iff, List.map_eq_nil_iff] at h
    obtain ⟨_, _, rfl, ⟨_, _, rfl, ⟨result, _, rfl, rfl, equal, _, rfl, rfl, keyword, _, rfl, rfl, rfl⟩,
      htype⟩, comma, _, rfl, rfl, align, _, rfl, rfl, alignment, _, rfl, rfl, rfl⟩ := h
    obtain ⟨type, rfl, rfl⟩ := exists_type htype
    exact ⟨.alloca result equal keyword type comma align alignment, rfl, by simp [lexemes, pieces]⟩
  | load =>
    simp only [lexemes, pieces, List.map_append, List.map_cons, List.map_nil,
      List.map_eq_append_iff, List.map_eq_cons_iff, List.map_eq_nil_iff] at h
    obtain ⟨_, _, rfl, ⟨_, _, rfl, ⟨result, _, rfl, rfl, equal, _, rfl, rfl, keyword, _, rfl, rfl, rfl⟩,
      htype⟩, pointer, _, rfl, rfl, comma, _, rfl, rfl, align, _, rfl, rfl, alignment, _, rfl, rfl,
      rfl⟩ := h
    obtain ⟨type, rfl, rfl⟩ := exists_type htype
    exact ⟨.load result equal keyword type pointer comma align alignment, rfl,
      by simp [lexemes, pieces]⟩
  | store =>
    simp only [lexemes, pieces, List.map_append, List.map_cons, List.map_nil,
      List.map_eq_append_iff, List.map_eq_cons_iff, List.map_eq_nil_iff] at h
    obtain ⟨_, _, rfl, ⟨_, _, rfl, ⟨_, _, rfl, ⟨_, _, rfl, ⟨keyword, _, rfl, rfl, rfl⟩, htype⟩, t, _,
      rfl, hvalue, comma, _, rfl, rfl, rfl⟩, hpointer⟩, pointer, _, rfl, rfl, comma', _, rfl, rfl,
      align, _, rfl, rfl, alignment, _, rfl, rfl, rfl⟩ := h
    obtain ⟨type, rfl, rfl⟩ := exists_type htype
    obtain ⟨value, rfl, rfl⟩ := exists_operand hvalue
    obtain ⟨pointerType, rfl, rfl⟩ := exists_type hpointer
    exact ⟨.store keyword type value comma pointerType pointer comma' align alignment, rfl,
      by simp [lexemes, pieces]⟩

/-- Lexemes of another sort can be put in the places of all instructions'. -/
theorem exists_map_map_eq {f : β → α} : ∀ {d : List (Instr α)} {ts : List β},
    ts.map f = d.flatMap lexemes → ∃ e : List (Instr β), e.map (map f) = d ∧ e.flatMap lexemes = ts
  | [], ts, h => ⟨[], rfl, (List.map_eq_nil_iff.mp h).symm⟩
  | i :: d, ts, h => by
    obtain ⟨us, vs, rfl, hi, hd⟩ := List.map_eq_append_iff.mp h
    obtain ⟨j, rfl, rfl⟩ := exists_map_eq hi
    obtain ⟨e, rfl, rfl⟩ := exists_map_map_eq hd
    exact ⟨j :: e, rfl, rfl⟩

/-- Every lexeme is one of its kind. -/
def Fits (i : Instr String) : Prop := ∀ p ∈ i.pieces, p.1.fits p.2.toList = true

instance (i : Instr String) : Decidable i.Fits :=
  inferInstanceAs (Decidable (∀ p ∈ i.pieces, p.1.fits p.2.toList = true))

/-- Would a store's value type and its value run together if they touched? -/
def crowded : Instr String → Bool
  | .store _ ⟨_, none⟩ (.number value) .. => value.toList.head?.any Char.isDigit
  | _ => false

/-- For each lexeme, must there be white space after it? Only after a store's value type, which is its
second lexeme, and only if it would run together with the value. -/
def apart (i : Instr String) : List Bool := i.lexemes.mapIdx fun n _ => n = 1 && i.crowded

end Instr

/-! ### Syntax nodes -/

/-- The node of a type. -/
def Ty.node (t : Ty Token) : Value :=
  Shape.type.make [.token t.name, (t.star.map Value.token).getD .absent]

/-- The node of an operand. -/
def Operand.node : Operand Token → Value
  | .name t => Shape.identifier.make [.token t]
  | .number t => Shape.integerLiteral.make [.token t]

/-- The node of an instruction. -/
def Instr.node : Instr Token → Value
  | .alloca result equal keyword type comma align alignment =>
    Shape.alloca.make [Operand.node (.name result), .token equal, .token keyword, type.node,
      .token comma, .token align, .token alignment]
  | .load result equal keyword type pointer comma align alignment =>
    Shape.load.make [Operand.node (.name result), .token equal, .token keyword, type.node,
      Operand.node (.name pointer), .token comma, .token align, .token alignment]
  | .store keyword type value comma pointerType pointer comma' align alignment =>
    Shape.store.make [.token keyword, type.node, value.node, .token comma, pointerType.node,
      Operand.node (.name pointer), .token comma', .token align, .token alignment]

@[simp] theorem tokens_token (t : Token) : tokens (.token t) = .ok [t] := by rw [tokens]

@[simp] theorem tokens_type (t : Ty Token) : tokens t.node = .ok (t.pieces.map (·.2)) := by
  rcases t with ⟨name, _ | star⟩ <;> rfl

@[simp] theorem tokens_operand (v : Operand Token) : tokens v.node = .ok [v.piece.2] := by
  cases v <;> rfl

theorem tokensOfAll_cons {v : Value} {ts us : List Token} {rest : List Value}
    (hv : tokens v = .ok ts) (hrest : tokensOfAll rest = .ok us) :
    tokensOfAll (v :: rest) = .ok (ts ++ us) := by
  rw [tokensOfAll, hv, hrest]
  rfl

/-- The tokens of an instruction's node are its lexemes. -/
theorem tokens_node (i : Instr Token) : tokens i.node = .ok i.lexemes := by
  have hmake : ∀ shape ∈ [Shape.alloca, .load, .store], ∀ values,
      values.length = shape.fields.length → tokens (shape.make values) = tokensOfAll values := by
    intro shape hshape values hlen
    simp only [List.mem_cons, List.not_mem_nil, or_false] at hshape
    rcases hshape with rfl | rfl | rfl <;> simp_all [Shape.make, tokens] <;> rfl
  cases i <;> rw [Instr.node, hmake _ (by decide) _ rfl] <;>
    simp [tokensOfAll, bind, Except.bind, pure, Except.pure, Instr.lexemes, Instr.pieces, Operand.piece]

theorem tokensOfAll_nodes : ∀ is : List (Instr Token),
    tokensOfAll (is.map Instr.node) = .ok (is.flatMap Instr.lexemes)
  | [] => rfl
  | i :: is => tokensOfAll_cons (tokens_node i) (tokensOfAll_nodes is)

end

/-! ### Texts -/

/-- Is the text made of white space? -/
def isBlank (s : String) : Bool := s.toList.all Text.isSpace

/-- Lexemes with a gap after each. -/
def spaced : (lexemes gaps : List String) → String
  | l :: ls, g :: gs => l ++ g ++ spaced ls gs
  | _, _ => ""

/-- The tokens of lexemes with a gap after each, where the first stands after the given text. -/
def tokensFrom : (before : String) → (lexemes gaps : List String) → List Token
  | before, l :: ls, g :: gs => .after before l :: tokensFrom (before ++ l ++ g) ls gs
  | _, _, _ => []

/-- The gap is white space, and holds something where it must. -/
def GapFor (apart : Bool) (gap : String) : Prop := isBlank gap = true ∧ (apart = true → gap ≠ "")

instance (apart : Bool) (gap : String) : Decidable (GapFor apart gap) :=
  inferInstanceAs (Decidable (isBlank gap = true ∧ (apart = true → gap ≠ "")))

/-- The text is what the description is printed as, with the given white space before the first lexeme
and after each. -/
structure Prints (d : List (Instr String)) (lead : String) (gaps : List String) (text : String) :
    Prop where
  nonempty : d ≠ []
  fits : ∀ i ∈ d, i.Fits
  blank : isBlank lead = true
  spread : List.Forall₂ GapFor (d.flatMap Instr.apart) gaps
  written : text = lead ++ spaced (d.flatMap Instr.lexemes) gaps

/-! ### Characters of lexemes -/

theorem isSpace_eq_false {c : Char} (h : 0x20 < c.toNat) (h' : c.toNat < 0x85) :
    Text.isSpace c = false := by
  simp [Text.isSpace]
  omega

theorem isSpace_of_isDigit {c : Char} (h : c.isDigit = true) : Text.isSpace c = false := by
  simp [Char.isDigit, UInt32.le_iff_toNat_le] at h
  exact isSpace_eq_false (by omega) (by omega)

/-- Letters and digits, by their ranges. -/
theorem isAlphanum_eq (c : Char) :
    c.isAlphanum = ('A' ≤ c && c ≤ 'Z' || 'a' ≤ c && c ≤ 'z' || '0' ≤ c && c ≤ '9') := by
  have hupper : c.isUpper = ('A' ≤ c && c ≤ 'Z') := Bool.decide_and ..
  rw [← hupper]
  rfl

theorem isSpace_of_isNameChar {c : Char} (h : isNameChar c = true) : Text.isSpace c = false := by
  simp [isNameChar, isAlphanum_eq, Char.le_def, UInt32.le_iff_toNat_le] at h
  rcases h with (((h | rfl) | rfl) | rfl) | rfl
  · exact isSpace_eq_false (by omega) (by omega)
  all_goals decide

theorem all_of_some? {test : Char → Bool} {cs : List Char} (h : some? test cs = true) :
    ∀ c ∈ cs, test c = true := by
  simp only [some?, Bool.and_eq_true] at h
  exact List.all_eq_true.mp h.2

namespace Kind
variable {k : Kind} {cs : List Char}

theorem ne_nil_of_fits (h : k.fits cs = true) : cs ≠ [] := by
  rintro rfl
  cases k with
  | word w => cases w <;> simp [fits, Word.text] at h
  | digits => simp [fits, some?] at h
  | type => cases h
  | number => cases h
  | name => cases h

/-- A lexeme has no white space in it. -/
theorem isSpace_of_fits (h : k.fits cs = true) : ∀ c ∈ cs, Text.isSpace c = false := by
  have hdigits : ∀ {cs}, some? Char.isDigit cs = true → ∀ c ∈ cs, Text.isSpace c = false :=
    fun h c hc => isSpace_of_isDigit (all_of_some? h c hc)
  obtain ⟨c, cs, rfl⟩ := List.exists_cons_of_ne_nil (ne_nil_of_fits h)
  cases k with
  | word w =>
    have hword : w.text.toList.all (fun c => !Text.isSpace c) = true := by cases w <;> decide
    simp only [fits, decide_eq_true_eq] at h
    rw [h]
    simpa using hword
  | digits => exact hdigits h
  | type =>
    simp only [fits, Bool.and_eq_true, decide_eq_true_eq] at h
    obtain ⟨rfl, h⟩ := h
    exact List.forall_mem_cons.mpr ⟨by decide, hdigits h⟩
  | number =>
    simp only [fits] at h
    split at h
    · rename_i hc
      subst hc
      exact List.forall_mem_cons.mpr ⟨by decide, hdigits h⟩
    · exact hdigits h
  | name =>
    simp only [fits, Bool.and_eq_true, Bool.or_eq_true, decide_eq_true_eq] at h
    obtain ⟨hc, h⟩ := h
    refine List.forall_mem_cons.mpr ⟨?_, fun c hc => isSpace_of_isNameChar (all_of_some? h c hc)⟩
    rcases hc with rfl | rfl <;> decide

end Kind

/-! ### Printed texts -/

@[simp] theorem spaced_cons (l g : String) (ls gs : List String) :
    spaced (l :: ls) (g :: gs) = l ++ g ++ spaced ls gs := rfl

@[simp] theorem tokensFrom_cons (before l g : String) (ls gs : List String) :
    tokensFrom before (l :: ls) (g :: gs) =
      .after before l :: tokensFrom (before ++ l ++ g) ls gs := rfl

theorem map_text_tokensFrom : ∀ {ls gs : List String} (before : String), gs.length = ls.length →
    (tokensFrom before ls gs).map Token.text = ls
  | [], [], _, _ => rfl
  | l :: ls, g :: gs, before, h => by
    rw [tokensFrom_cons, List.map_cons, map_text_tokensFrom _ (Nat.succ.inj h)]
    rfl

/-- Without its white space a text is its lexemes. -/
theorem filter_spaced : ∀ {ls gs : List String}, gs.length = ls.length →
    (∀ l ∈ ls, ∀ c ∈ l.toList, Text.isSpace c = false) → (∀ g ∈ gs, isBlank g = true) →
    (spaced ls gs).toList.filter (fun c => !Text.isSpace c) = (String.join ls).toList
  | [], [], _, _, _ => rfl
  | l :: ls, g :: gs, hlen, hls, hgs => by
    obtain ⟨hl, hls⟩ := List.forall_mem_cons.mp hls
    obtain ⟨hg, hgs⟩ := List.forall_mem_cons.mp hgs
    have hword : l.toList.filter (fun c => !Text.isSpace c) = l.toList :=
      List.filter_eq_self.mpr fun c hc => by simp [hl c hc]
    have hgap : g.toList.filter (fun c => !Text.isSpace c) = [] :=
      List.filter_eq_nil_iff.mpr fun c hc => by simp [List.all_eq_true.mp hg c hc]
    simp [hword, hgap, filter_spaced (Nat.succ.inj hlen) hls hgs]

/-- Characters that pass a test, up to one that does not. -/
theorem takeWhile_append_stop {test : Char → Bool} {cs rest : List Char}
    (hcs : ∀ c ∈ cs, test c = true) (hrest : ∀ c ∈ rest.head?, test c = false) :
    (cs ++ rest).takeWhile test = cs := by
  rw [List.takeWhile_append_of_pos hcs]
  cases rest with
  | nil => simp
  | cons c rest => simp [hrest c rfl]

theorem spaced_head {l g : String} {ls gs : List String} (hne : l.toList ≠ [])
    (hl : ∀ c ∈ l.toList, Text.isSpace c = false) :
    ∀ c ∈ (spaced (l :: ls) (g :: gs)).toList.head?, Text.isSpace c = false := by
  obtain ⟨c, cs, hcs⟩ := List.exists_cons_of_ne_nil hne
  intro c' hc'
  rw [spaced_cons, String.toList_append, String.toList_append, hcs] at hc'
  cases hc'
  exact hl c (hcs ▸ List.mem_cons_self ..)

/-- A text that starts with white space and goes on with the lexemes has its gaps in one way only. -/
theorem gaps_unique : ∀ {ls gs gs' : List String} {lead lead' : String},
    gs.length = ls.length → gs'.length = ls.length →
    (∀ l ∈ ls, l.toList ≠ [] ∧ ∀ c ∈ l.toList, Text.isSpace c = false) →
    (∀ g ∈ lead :: gs, isBlank g = true) → (∀ g ∈ lead' :: gs', isBlank g = true) →
    lead ++ spaced ls gs = lead' ++ spaced ls gs' → lead = lead' ∧ gs = gs'
  | [], [], [], _, _, _, _, _, _, _, h => ⟨by simpa [spaced] using h, rfl⟩
  | l :: ls, g :: gs, g' :: gs', lead, lead', hlen, hlen', hls, hgs, hgs', h => by
    obtain ⟨⟨hne, hl⟩, hls⟩ := List.forall_mem_cons.mp hls
    obtain ⟨hlead, hgs⟩ := List.forall_mem_cons.mp hgs
    obtain ⟨hlead', hblanks⟩ := List.forall_mem_cons.mp hgs'
    have hchars := congrArg String.toList h
    rw [String.toList_append, String.toList_append] at hchars
    obtain rfl : lead = lead' := by
      have := congrArg (List.takeWhile Text.isSpace) hchars
      rw [takeWhile_append_stop (List.all_eq_true.mp hlead) (spaced_head hne hl),
        takeWhile_append_stop (List.all_eq_true.mp hlead') (spaced_head hne hl)] at this
      exact String.toList_inj.mp this
    have hrest : g ++ spaced ls gs = g' ++ spaced ls gs' := by
      simpa [String.append_assoc, ← String.toList_inj] using hchars
    obtain ⟨rfl, rfl⟩ := gaps_unique (Nat.succ.inj hlen) (Nat.succ.inj hlen') hls hgs hblanks hrest
    exact ⟨rfl, rfl⟩

/-! ### Descriptions -/

theorem blank_of_spread {flags : List Bool} {gaps : List String}
    (h : List.Forall₂ GapFor flags gaps) : ∀ g ∈ gaps, isBlank g = true := by
  induction h with
  | nil => simp
  | cons hgap _ ih => exact List.forall_mem_cons.mpr ⟨hgap.1, ih⟩

theorem Instr.length_apart (i : Instr String) : i.apart.length = i.lexemes.length := by
  simp [apart]

theorem length_flatMap_apart (d : List (Instr String)) :
    (d.flatMap Instr.apart).length = (d.flatMap Instr.lexemes).length := by
  simp [List.length_flatMap, Instr.length_apart]

namespace Prints
variable {d : List (Instr String)} {lead text : String} {gaps : List String}

theorem length_gaps (h : Prints d lead gaps text) :
    gaps.length = (d.flatMap Instr.lexemes).length := by
  rw [← h.spread.length_eq, length_flatMap_apart]

theorem blank_gaps (h : Prints d lead gaps text) : ∀ g ∈ lead :: gaps, isBlank g = true :=
  List.forall_mem_cons.mpr ⟨h.blank, blank_of_spread h.spread⟩

theorem solid_lexemes (h : Prints d lead gaps text) : ∀ l ∈ d.flatMap Instr.lexemes,
    l.toList ≠ [] ∧ ∀ c ∈ l.toList, Text.isSpace c = false := by
  intro l hl
  obtain ⟨i, hi, hl⟩ := List.mem_flatMap.mp hl
  obtain ⟨⟨k, _⟩, hp, rfl⟩ := List.mem_map.mp hl
  have hfits := h.fits i hi _ hp
  exact ⟨Kind.ne_nil_of_fits hfits, Kind.isSpace_of_fits hfits⟩

/-- The lexemes, joined, are the text without its white space. -/
theorem join_lexemes (h : Prints d lead gaps text) :
    String.join (d.flatMap Instr.lexemes) =
      String.ofList (text.toList.filter fun c => !Text.isSpace c) := by
  obtain ⟨hlead, hgaps⟩ := List.forall_mem_cons.mp h.blank_gaps
  have hblank : lead.toList.filter (fun c => !Text.isSpace c) = [] :=
    List.filter_eq_nil_iff.mpr fun c hc => by simp [List.all_eq_true.mp hlead c hc]
  rw [h.written, String.toList_append, List.filter_append, hblank,
    filter_spaced h.length_gaps (fun l hl => (h.solid_lexemes l hl).2) hgaps, List.nil_append,
    String.ofList_toList]

end Prints

end Ir
end PegScribe
