import PegScribe.Text.Charset

/-!
Encoding: a row of bytes is read as UTF-8 just when it is the encoding of a text, and then as that text.

`utf8Bytes` writes texts as bytes. One step of the reader undoes the writing of one character
(`utf8Step_ok_iff`): the limits on the second byte shut out just what is never written. So the reader
stops at a fault exactly on the rows of bytes that no text is written as.
-/
namespace PegScribe.Text

/-- The bytes of a character. -/
def utf8Char (c : Char) : List Nat := (String.utf8EncodeChar c).map UInt8.toNat

/-- The bytes of a text. -/
def utf8Bytes (cs : List Char) : List Nat := cs.flatMap utf8Char

theorem utf8Char_eq (c : Char) :
    utf8Char c =
      if c.toNat ≤ 0x7F then [c.toNat]
      else if c.toNat ≤ 0x7FF then [c.toNat / 64 + 192, c.toNat % 64 + 128]
      else if c.toNat ≤ 0xFFFF then
        [c.toNat / 4096 + 224, c.toNat / 64 % 64 + 128, c.toNat % 64 + 128]
      else
        [c.toNat / 262144 + 240, c.toNat / 4096 % 64 + 128, c.toNat / 64 % 64 + 128,
          c.toNat % 64 + 128] := by
  have hval : c.val.toNat = c.toNat := rfl
  have hlt : c.toNat < 0x110000 := by
    rcases c.valid with h | h <;> omega
  unfold utf8Char String.utf8EncodeChar
  simp only [hval]
  split
  · simp; omega
  split
  · simp; omega
  split
  · simp; omega
  · simp; omega

namespace Charset

theorem isTail_iff {b : Nat} : isTail b = true ↔ 0x80 ≤ b ∧ b ≤ 0xBF := by simp [isTail]

theorem isSecond_iff {lead b : Nat} : isSecond lead b = true ↔ (0x80 ≤ b ∧ b ≤ 0xBF) ∧
    (lead = 0xE0 → 0xA0 ≤ b) ∧ (lead = 0xED → b ≤ 0x9F) ∧ (lead = 0xF0 → 0x90 ≤ b) ∧
    (lead = 0xF4 → b ≤ 0x8F) := by
  simp only [isSecond, isTail, Bool.and_eq_true, Bool.or_eq_true, bne_iff_ne, decide_eq_true_eq]
  omega

/-- The bytes of a character are those of its number, by the size of the number. -/
theorem utf8Char_ofNat {n : Nat} (hn : n.isValidChar) :
    utf8Char (Char.ofNat n) =
      if n ≤ 0x7F then [n]
      else if n ≤ 0x7FF then [n / 64 + 192, n % 64 + 128]
      else if n ≤ 0xFFFF then [n / 4096 + 224, n / 64 % 64 + 128, n % 64 + 128]
      else [n / 262144 + 240, n / 4096 % 64 + 128, n / 64 % 64 + 128, n % 64 + 128] := by
  have hnat : (Char.ofNat n).toNat = n := by
    rw [Char.ofNat, dif_pos hn]
    rfl
  rw [utf8Char_eq, hnat]

/-- A character that is read was written there. -/
theorem utf8Char_of_step {lead : Nat} {rest : List Nat} {c : Char} {n : Nat}
    (h : utf8Step lead rest = .ok (c, n)) :
    ∃ after, lead :: rest = utf8Char c ++ after ∧ n = (utf8Char c).length := by
  -- one byte, two, three or four: each byte that is passed leaves bounds for the number read
  unfold utf8Step at h
  dsimp only at h
  split at h
  · rename_i hlead
    cases h
    rw [utf8Char_ofNat (.inl (by omega)), if_pos (by omega)]
    exact ⟨rest, rfl, rfl⟩
  split at h
  · cases h
  rename_i hlow hlead
  simp only [Bool.or_eq_true, decide_eq_true_eq, not_or] at hlead
  rcases rest with _ | ⟨b, rest⟩
  · cases h
  dsimp only at h
  split at h
  · cases h
  rename_i hb
  rw [Bool.not_eq_true', Bool.not_eq_false, isSecond_iff] at hb
  split at h
  · cases h
    rw [utf8Char_ofNat (.inl (by omega)), if_neg (by omega), if_pos (by omega)]
    refine ⟨rest, ?_, rfl⟩
    simp
    omega
  rcases rest with _ | ⟨c, rest⟩
  · cases h
  dsimp only at h
  split at h
  · cases h
  rename_i hc
  rw [Bool.not_eq_true', Bool.not_eq_false, isTail_iff] at hc
  split at h
  · cases h
    rw [utf8Char_ofNat (by unfold Nat.isValidChar; omega), if_neg (by omega), if_neg (by omega),
      if_pos (by omega)]
    refine ⟨rest, ?_, rfl⟩
    simp
    omega
  rcases rest with _ | ⟨d, rest⟩
  · cases h
  dsimp only at h
  split at h
  · cases h
  rename_i hd
  rw [Bool.not_eq_true', Bool.not_eq_false, isTail_iff] at hd
  cases h
  rw [utf8Char_ofNat (by unfold Nat.isValidChar; omega), if_neg (by omega), if_neg (by omega),
    if_neg (by omega)]
  refine ⟨rest, ?_, rfl⟩
  simp
  omega

/-- A character that was written is read. -/
theorem step_of_utf8Char {lead : Nat} {rest after : List Nat} {c : Char}
    (h : lead :: rest = utf8Char c ++ after) :
    utf8Step lead rest = .ok (c, (utf8Char c).length) := by
  have hvalid : c.toNat < 0xD800 ∨ (0xDFFF < c.toNat ∧ c.toNat < 0x110000) := c.valid
  have hread : ∀ {n}, n = c.toNat → Char.ofNat n = c := by
    rintro n rfl
    exact Char.ofNat_toNat c
  have hsecond : ∀ {lead b}, isSecond lead b = true → ¬ (!isSecond lead b) = true := by simp
  have htail : ∀ {b}, isTail b = true → ¬ (!isTail b) = true := by simp
  -- the size of the number says how many bytes there are, and the tests on them all come out well
  have hbytes := utf8Char_eq c
  unfold utf8Step
  split at hbytes
  · rw [hbytes] at h ⊢
    simp only [List.cons_append, List.nil_append] at h
    cases h
    rw [if_pos (by omega), hread rfl]
    rfl
  split at hbytes
  · rw [hbytes] at h ⊢
    simp only [List.cons_append, List.nil_append] at h
    cases h
    rw [if_neg (by omega), if_neg (by simp; omega)]
    dsimp only
    rw [if_neg (hsecond (isSecond_iff.mpr (by omega))), if_pos (by omega), hread (by omega)]
    rfl
  split at hbytes
  · rw [hbytes] at h ⊢
    simp only [List.cons_append, List.nil_append] at h
    cases h
    rw [if_neg (by omega), if_neg (by simp; omega)]
    dsimp only
    rw [if_neg (hsecond (isSecond_iff.mpr (by omega))), if_neg (by omega),
      if_neg (htail (isTail_iff.mpr (by omega))), if_pos (by omega), hread (by omega)]
    rfl
  · rw [hbytes] at h ⊢
    simp only [List.cons_append, List.nil_append] at h
    cases h
    rw [if_neg (by omega), if_neg (by simp; omega)]
    dsimp only
    rw [if_neg (hsecond (isSecond_iff.mpr (by omega))), if_neg (by omega),
      if_neg (htail (isTail_iff.mpr (by omega))), if_neg (by omega),
      if_neg (htail (isTail_iff.mpr (by omega))), hread (by omega)]
    rfl

/-- A character is read just when it was written there. -/
theorem utf8Step_ok_iff {lead : Nat} {rest : List Nat} {c : Char} {n : Nat} :
    utf8Step lead rest = .ok (c, n) ↔
      ∃ after, lead :: rest = utf8Char c ++ after ∧ n = (utf8Char c).length :=
  ⟨utf8Char_of_step, fun ⟨_, h, hn⟩ => hn ▸ step_of_utf8Char h⟩

theorem utf8Char_ne_nil (c : Char) : utf8Char c ≠ [] := by
  rw [utf8Char_eq]
  split
  · simp
  split
  · simp
  split <;> simp

theorem utf8From_skip (rest : List Nat) : ∀ (passed : List Nat) (pos : Nat),
    utf8From (passed ++ rest) pos passed.length = utf8From rest (pos + passed.length) 0
  | [], pos => rfl
  | _ :: passed, pos => by
    rw [List.length_cons, List.cons_append, utf8From, utf8From_skip rest passed]
    congr 1
    omega

/-- Reading goes on behind a character that was written. -/
theorem utf8From_char (c : Char) (rest : List Nat) (pos : Nat) :
    ∃ next, utf8From (utf8Char c ++ rest) pos 0 = (utf8From rest next 0).map (c :: ·) := by
  obtain ⟨lead, tail, hchar⟩ := List.exists_cons_of_ne_nil (utf8Char_ne_nil c)
  have hstep : utf8Step lead (tail ++ rest) = .ok (c, (utf8Char c).length) :=
    utf8Step_ok_iff.mpr ⟨rest, by rw [hchar]; rfl, rfl⟩
  have hlen : (utf8Char c).length - 1 = tail.length := by rw [hchar]; rfl
  refine ⟨pos + 1 + tail.length, ?_⟩
  rw [hchar, List.cons_append, utf8From, hstep]
  dsimp only
  rw [hlen, utf8From_skip]

theorem utf8From_utf8Bytes : ∀ (cs : List Char) (pos : Nat), utf8From (utf8Bytes cs) pos 0 = .ok cs
  | [], _ => rfl
  | c :: cs, pos => by
    obtain ⟨next, hnext⟩ := utf8From_char c (utf8Bytes cs) pos
    rw [utf8Bytes, List.flatMap_cons, ← utf8Bytes, hnext, utf8From_utf8Bytes cs next]
    rfl

/-- What is read is the text that was written. -/
theorem utf8Bytes_of_utf8From {bytes : List Nat} {pos : Nat} {cs : List Char}
    (h : utf8From bytes pos 0 = .ok cs) : bytes = utf8Bytes cs := by
  -- on the number of bytes, since a character takes several at once
  induction hsize : bytes.length using Nat.strongRecOn generalizing bytes pos cs with
  | _ size ih =>
    cases bytes with
    | nil => cases h; rfl
    | cons lead rest =>
      cases hstep : utf8Step lead rest with
      | error e => simp [utf8From, hstep] at h
      | ok found =>
        obtain ⟨c, n⟩ := found
        obtain ⟨after, hbytes, -⟩ := utf8Step_ok_iff.mp hstep
        obtain ⟨next, hnext⟩ := utf8From_char c after pos
        rw [hbytes, hnext] at h
        cases hafter : utf8From after next 0 with
        | error e => rw [hafter] at h; cases h
        | ok cs' =>
          rw [hafter] at h
          cases h
          have hlt : after.length < size := by
            have hne := List.length_pos_iff.mpr (utf8Char_ne_nil c)
            rw [← hsize, hbytes, List.length_append]
            omega
          rw [hbytes, ih _ hlt hafter rfl]
          rfl

/-- The bytes of a file are read as UTF-8 just when a text is written as them, and then as that text. -/
theorem decodeFile_utf8_iff {bytes : List Nat} {cs : List Char} :
    Charset.utf8.decodeFile bytes = .ok cs ↔ bytes = utf8Bytes cs := by
  have hdecode : Charset.utf8.decodeFile bytes = utf8From bytes 0 0 := rfl
  rw [hdecode]
  exact ⟨utf8Bytes_of_utf8From, fun h => h ▸ utf8From_utf8Bytes cs 0⟩

end Charset

end PegScribe.Text
