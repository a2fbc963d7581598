import Mathlib.Algebra.Group.Nat.Defs
import PegScribe.Text.Quoted

/-!
Quoting: quoted text can be read back, and tells where it ends.

Each character between quotes is read back by itself, whatever comes after it (`unquoteChar_quoteChar`),
and none looks like the closing quote. So two quoted texts at the head of one text are the same
(`quote_cancel`).
-/
namespace PegScribe.Text

/-! ### Hexadecimal digits -/

/-- The value of a hexadecimal digit. -/
def hexDigit (c : Char) : Nat := if c.toNat < 0x40 then c.toNat - 0x30 else c.toNat - 0x57

/-- The number that hexadecimal digits stand for. -/
def hexValue (digits : List Char) : Nat := digits.foldl (fun n c => 16 * n + hexDigit c) 0

theorem hexDigit_digitChar : ∀ n < 16, hexDigit (Nat.digitChar n) = n := by decide

theorem length_hex (width n : Nat) : (hex width n).length = width := by
  induction width generalizing n with
  | zero => rfl
  | succ w ih => rw [hex, List.length_append, ih, List.length_singleton]

theorem hexValue_hex (width n : Nat) : hexValue (hex width n) = n % 16 ^ width := by
  induction width generalizing n with
  | zero => simp [hex, hexValue, Nat.mod_one]
  | succ w ih =>
    have hlast : hexValue (hex (w + 1) n) =
        16 * hexValue (hex w (n / 16)) + hexDigit (Nat.digitChar (n % 16)) := by
      simp [hex, hexValue]
    rw [hlast, ih, hexDigit_digitChar _ (Nat.mod_lt _ (by decide)), Nat.pow_succ, Nat.mul_comm (16 ^ w),
      Nat.mod_mul, Nat.add_comm]

/-! ### One character -/

/-- Reads back a character between quotes, and what comes after it. -/
def unquoteChar : List Char → Option (Char × List Char)
  | '\\' :: 'n' :: rest => some ('\n', rest)
  | '\\' :: 'r' :: rest => some ('\r', rest)
  | '\\' :: 't' :: rest => some ('\t', rest)
  | '\\' :: 'x' :: rest => some (.ofNat (hexValue (rest.take 2)), rest.drop 2)
  | '\\' :: 'u' :: rest => some (.ofNat (hexValue (rest.take 4)), rest.drop 4)
  | '\\' :: 'U' :: rest => some (.ofNat (hexValue (rest.take 8)), rest.drop 8)
  | '\\' :: c :: rest => some (c, rest)
  | c :: rest => some (c, rest)
  | [] => none

/-- The digits of a character's number give the character back. -/
theorem ofNat_hex {c : Char} {width : Nat} (h : c.toNat < 16 ^ width) (rest : List Char) :
    Char.ofNat (hexValue ((hex width c.toNat ++ rest).take width)) = c ∧
      (hex width c.toNat ++ rest).drop width = rest := by
  have hlen := length_hex width c.toNat
  constructor
  · rw [List.take_append_of_le_length (by omega), List.take_of_length_le (by omega), hexValue_hex,
      Nat.mod_eq_of_lt h, Char.ofNat_toNat]
  · rw [List.drop_append_of_le_length (by omega), List.drop_of_length_le (by omega), List.nil_append]

theorem unquoteChar_numbered (c : Char) (rest : List Char) :
    unquoteChar (numbered c ++ rest) = some (c, rest) := by
  unfold numbered
  dsimp only
  split
  · rename_i h
    obtain ⟨hc, hrest⟩ := ofNat_hex (show c.toNat < 16 ^ 2 from h) rest
    simp [unquoteChar, hc, hrest]
  · split
    · rename_i h
      obtain ⟨hc, hrest⟩ := ofNat_hex (show c.toNat < 16 ^ 4 from h) rest
      simp [unquoteChar, hc, hrest]
    · have h : c.toNat < 16 ^ 8 := c.val.toNat_lt
      obtain ⟨hc, hrest⟩ := ofNat_hex h rest
      simp [unquoteChar, hc, hrest]

/-- A character stands for itself, is escaped, or is written by its number. -/
theorem quoteChar_cases (q c : Char) :
    (quoteChar q c = [c] ∧ c ≠ q ∧ c ≠ '\\') ∨
    (∃ x, quoteChar q c = ['\\', x] ∧
      ((x = c ∧ (c = q ∨ c = '\\')) ∨ (x = 'n' ∧ c = '\n') ∨ (x = 'r' ∧ c = '\r') ∨
        (x = 't' ∧ c = '\t'))) ∨
    quoteChar q c = numbered c := by
  unfold quoteChar
  by_cases h : (c = q || c = '\\') = true
  · rw [if_pos h]
    exact .inr (.inl ⟨c, rfl, .inl ⟨rfl, by simpa using h⟩⟩)
  · rw [if_neg h]
    by_cases hn : c = '\n'
    · rw [if_pos hn]; exact .inr (.inl ⟨'n', rfl, .inr (.inl ⟨rfl, hn⟩)⟩)
    rw [if_neg hn]
    by_cases hr : c = '\r'
    · rw [if_pos hr]; exact .inr (.inl ⟨'r', rfl, .inr (.inr (.inl ⟨rfl, hr⟩))⟩)
    rw [if_neg hr]
    by_cases ht : c = '\t'
    · rw [if_pos ht]; exact .inr (.inl ⟨'t', rfl, .inr (.inr (.inr ⟨rfl, ht⟩))⟩)
    rw [if_neg ht]
    by_cases hp : isPrintable c = true
    · rw [if_pos hp]; exact .inl ⟨rfl, by simpa using h⟩
    · rw [if_neg hp]; exact .inr (.inr rfl)

/-- Quotes. -/
def IsQuote (q : Char) : Prop := q = '\'' ∨ q = '"'

theorem unquoteChar_quoteChar {q : Char} (hq : IsQuote q) (c : Char) (rest : List Char) :
    unquoteChar (quoteChar q c ++ rest) = some (c, rest) := by
  rcases quoteChar_cases q c with ⟨h, -, hc⟩ | ⟨x, h, hx⟩ | h <;> rw [h]
  · show unquoteChar (c :: rest) = some (c, rest)
    unfold unquoteChar
    split <;> simp_all
  · rcases hx with ⟨rfl, rfl | rfl⟩ | ⟨rfl, rfl⟩ | ⟨rfl, rfl⟩ | ⟨rfl, rfl⟩
    · rcases hq with rfl | rfl <;> rfl
    all_goals rfl
  · exact unquoteChar_numbered c rest

theorem numbered_eq (c : Char) : ∃ digits, numbered c = '\\' :: digits := by
  unfold numbered
  dsimp only
  split
  · exact ⟨_, rfl⟩
  · split <;> exact ⟨_, rfl⟩

/-- What stands for a character never starts like the closing quote. -/
theorem quoteChar_start {q : Char} (hq : IsQuote q) (c : Char) :
    ∃ x xs, quoteChar q c = x :: xs ∧ x ≠ q := by
  have hslash : '\\' ≠ q := by rcases hq with rfl | rfl <;> decide
  rcases quoteChar_cases q c with ⟨h, hc, -⟩ | ⟨x, h, -⟩ | h
  · exact ⟨c, [], h, hc⟩
  · exact ⟨_, _, h, hslash⟩
  · obtain ⟨digits, hdigits⟩ := numbered_eq c
    exact ⟨_, digits, h.trans hdigits, hslash⟩

/-! ### Whole texts -/

/-- The characters before a closing quote are known from what stands for them. -/
theorem flatMap_quoteChar_cancel {q : Char} (hq : IsQuote q) : ∀ {cs cs' rest rest' : List Char},
    cs.flatMap (quoteChar q) ++ q :: rest = cs'.flatMap (quoteChar q) ++ q :: rest' →
    cs = cs' ∧ rest = rest'
  | [], [], _, _, h => ⟨rfl, List.tail_eq_of_cons_eq h⟩
  | [], c :: cs', _, _, h => by
    obtain ⟨x, xs, hx, hne⟩ := quoteChar_start hq c
    rw [List.flatMap_cons, hx] at h
    exact absurd (List.head_eq_of_cons_eq h).symm hne
  | c :: cs, [], _, _, h => by
    obtain ⟨x, xs, hx, hne⟩ := quoteChar_start hq c
    rw [List.flatMap_cons, hx] at h
    exact absurd (List.head_eq_of_cons_eq h) hne
  | c :: cs, c' :: cs', rest, rest', h => by
    rw [List.flatMap_cons, List.flatMap_cons, List.append_assoc, List.append_assoc] at h
    have hread := congrArg unquoteChar h
    rw [unquoteChar_quoteChar hq, unquoteChar_quoteChar hq] at hread
    obtain ⟨rfl, hafter⟩ := Prod.mk.inj (Option.some.inj hread)
    obtain ⟨rfl, hrest⟩ := flatMap_quoteChar_cancel hq hafter
    exact ⟨rfl, hrest⟩

theorem isQuote_quoteMark (cs : List Char) : IsQuote (quoteMark cs) := by
  unfold quoteMark
  split
  · exact .inr rfl
  · exact .inl rfl

theorem toList_quote (s : String) : (quote s).toList =
    quoteMark s.toList :: (s.toList.flatMap (quoteChar (quoteMark s.toList)) ++
      [quoteMark s.toList]) := by
  unfold quote
  rw [String.toList_ofList]
  rfl

/-- Two quoted texts at the head of one text are the same text. -/
theorem quote_cancel {s s' : String} {rest rest' : List Char}
    (h : (quote s).toList ++ rest = (quote s').toList ++ rest') : s = s' ∧ rest = rest' := by
  rw [toList_quote, toList_quote, List.cons_append, List.cons_append, List.append_assoc,
    List.append_assoc] at h
  obtain ⟨hmark, h⟩ := List.cons.inj h
  rw [← hmark] at h
  obtain ⟨hs, hrest⟩ := flatMap_quoteChar_cancel (isQuote_quoteMark _) h
  exact ⟨String.toList_inj.mp hs, hrest⟩

end PegScribe.Text
