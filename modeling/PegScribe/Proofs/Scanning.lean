import Mathlib.Data.List.Induction
import PegScribe.Proofs.Derivation
import PegScribe.Proofs.Lexemes
import PegScribe.Proofs.Printing
import PegScribe.Regex.Library

/-!
Scanning: lexemes are cut off the front of a text, each as long as it can be, with the white space
around them.

`Kind.munch` says how long a lexeme of a kind is, and is what the patterns for lexemes come to. A lexeme
is cut off where no further character could go on with it (`munch_eq_some_iff`), so scanning one lexeme
after another succeeds exactly on the texts in which they stand with gaps between them, and a gap holds
something wherever two lexemes would run together (`chain_iff`).
-/
namespace PegScribe

/-! ### Places of tokens -/

namespace Source

@[simp] theorem toList_ofString (text : String) : (ofString text).chars.toList = text.toList := rfl

@[simp] theorem length_ofString (text : String) : (ofString text).length = text.length := by
  simp [ofString, length, String.length_toList]

theorem startsAfter_append : ∀ (cs rest : List Char) (at_ : Nat),
    startsAfter (cs ++ rest) at_ = startsAfter cs at_ ++ startsAfter rest (at_ + cs.length)
  | [], rest, at_ => by simp [startsAfter]
  | c :: cs, rest, at_ => by
    have ih := startsAfter_append cs rest (at_ + 1)
    have hlen : at_ + 1 + cs.length = at_ + (cs.length + 1) := by omega
    simp only [List.cons_append, startsAfter, ih, List.length_cons, hlen]
    split <;> rfl

theorem length_startsAfter : ∀ (cs : List Char) (at_ : Nat),
    (startsAfter cs at_).length = cs.count '\n'
  | [], _ => rfl
  | c :: cs, at_ => by
    have ih := length_startsAfter cs (at_ + 1)
    by_cases hc : c = '\n'
    · simp [startsAfter, hc, ih]
    · simp [startsAfter, hc, ih]

theorem startsAfter_bounds : ∀ {cs : List Char} {at_ n : Nat}, n ∈ startsAfter cs at_ →
    at_ < n ∧ n ≤ at_ + cs.length
  | [], _, _, h => by cases h
  | c :: cs, at_, n, h => by
    have ih : n ∈ startsAfter cs (at_ + 1) → at_ < n ∧ n ≤ at_ + (c :: cs).length := by
      intro h
      have := startsAfter_bounds h
      rw [List.length_cons]
      omega
    rw [startsAfter] at h
    split at h
    · rcases List.mem_cons.mp h with rfl | h
      · rw [List.length_cons]
        omega
      · exact ih h
    · exact ih h

/-- The last line of a text starts after its last line feed. -/
theorem getLastD_startsAfter (cs : List Char) :
    (startsAfter cs 0).getLastD 0 + (cs.reverse.takeWhile (· != '\n')).length = cs.length := by
  induction cs using List.reverseRecOn with
  | nil => rfl
  | append_singleton cs c ih =>
    rw [List.reverse_append, List.reverse_singleton, List.singleton_append]
    by_cases hc : c = '\n'
    · simp [startsAfter_append, startsAfter, hc]
    · rw [List.getLastD_eq_getLast?] at ih
      simp [startsAfter_append, startsAfter, hc]
      omega

variable {s : Source} {cs rest : List Char}

theorem lineOf_append (hs : s.chars.toList = cs ++ rest) :
    s.lineOf cs.length = cs.count '\n' + 1 := by
  have hbefore : (startsAfter cs 0).countP (· ≤ cs.length) = cs.count '\n' := by
    rw [← length_startsAfter cs 0]
    refine List.countP_eq_length.mpr fun n hn => ?_
    have := startsAfter_bounds hn
    simp
    omega
  have hafter : (startsAfter rest cs.length).countP (· ≤ cs.length) = 0 := by
    refine List.countP_eq_zero.mpr fun n hn => ?_
    have := startsAfter_bounds hn
    simp
    omega
  simp [lineOf, lineStarts, hs, startsAfter_append, List.countP_append, hbefore, hafter]

theorem lineStart_append (hs : s.chars.toList = cs ++ rest) :
    s.lineStart cs.length + (cs.reverse.takeWhile (· != '\n')).length = cs.length := by
  have hlast : s.lineStart cs.length = (startsAfter cs 0).getLastD 0 := by
    have hlen : (startsAfter cs 0).length = cs.count '\n' := length_startsAfter cs 0
    rw [lineStart, lineOf_append hs]
    dsimp only
    rw [lineStarts, hs, startsAfter_append, ← hlen]
    rcases List.eq_nil_or_concat (startsAfter cs 0) with hnil | ⟨starts, last, hconcat⟩
    · simp [hnil]
    · simp [hconcat]
  rw [hlast, getLastD_startsAfter]

/-- The token of a stretch of the text. -/
theorem token_after {text before lexeme rest : String} (h : text = before ++ lexeme ++ rest) :
    (Source.ofString text).token before.length (before.length + lexeme.length) =
      .after before lexeme := by
  have hs : (ofString text).chars.toList = before.toList ++ (lexeme ++ rest).toList := by
    simp [h, String.append_assoc]
  have hline := lineOf_append hs
  have hstart := lineStart_append hs
  rw [String.length_toList] at hline hstart
  have hslice : (ofString text).slice before.length (before.length + lexeme.length) = lexeme := by
    have hle : before.length + lexeme.length ≤ text.length := by
      rw [h, String.length_append, String.length_append]
      omega
    rw [slice_inside _ (by omega) (by omega) (by simpa using Int.ofNat_le.mpr hle), hs]
    have hlen : ((before.length : Int) + lexeme.length - before.length).toNat =
        lexeme.toList.length := by
      rw [String.length_toList]
      omega
    rw [Int.toNat_natCast, ← String.length_toList, List.drop_left, String.length_toList, hlen,
      String.toList_append, List.take_left, String.ofList_toList]
  simp only [token, position, hslice, hline, Token.after]
  congr 1
  omega

end Source

/-! ### The longest lexeme -/

namespace Ir

/-- The number of characters that pass the test, if there are any. -/
def munchSome (test : Char → Bool) (cs : List Char) : Option Nat :=
  let n := (cs.takeWhile test).length
  if n = 0 then none else some n

namespace Kind

/-- How long the lexeme of the kind is that the characters start with. -/
def munch : Kind → List Char → Option Nat
  | .word w, cs => if w.text.toList <+: cs then some w.text.length else none
  | .digits, cs => munchSome Char.isDigit cs
  | .type, c :: cs => if c = 'i' then (munchSome Char.isDigit cs).map (· + 1) else none
  | .number, c :: cs =>
    if c = '-' then (munchSome Char.isDigit cs).map (· + 1) else munchSome Char.isDigit (c :: cs)
  | .name, c :: cs =>
    if c = '%' ∨ c = '@' then (munchSome isNameChar cs).map (· + 1) else none
  | _, [] => none

/-- Could the character go on with a lexeme of the kind? -/
def goesOn : Kind → Char → Bool
  | .word _, _ => false
  | .name, c => isNameChar c
  | _, c => c.isDigit

end Kind

theorem munchSome_eq_some_iff {test : Char → Bool} {cs : List Char} {n : Nat} :
    munchSome test cs = some n ↔ ∃ l rest, cs = l ++ rest ∧ l.length = n ∧ some? test l = true ∧
      ∀ c ∈ rest.head?, test c = false := by
  constructor
  · intro h
    unfold munchSome at h
    dsimp only at h
    split at h
    · cases h
    · rename_i hne
      cases h
      refine ⟨cs.takeWhile test, cs.dropWhile test, List.takeWhile_append_dropWhile.symm, rfl, ?_,
        ?_⟩
      · have hall : (cs.takeWhile test).all test = true := List.all_takeWhile
        simpa [some?, hall] using hne
      · intro c hc
        have := List.head?_dropWhile_not test cs
        rwa [hc] at this
  · rintro ⟨l, rest, rfl, rfl, hl, hrest⟩
    have hne : l ≠ [] := by rintro rfl; simp [some?] at hl
    unfold munchSome
    rw [takeWhile_append_stop (all_of_some? hl) hrest]
    simp [hne]

theorem munchSome_succ_eq_some_iff {test : Char → Bool} {cs : List Char} {n : Nat} :
    (munchSome test cs).map (· + 1) = some n ↔ ∃ l rest, cs = l ++ rest ∧ l.length + 1 = n ∧
      some? test l = true ∧ ∀ c ∈ rest.head?, test c = false := by
  simp only [Option.map_eq_some_iff, munchSome_eq_some_iff]
  constructor
  · rintro ⟨_, ⟨l, rest, rfl, rfl, h⟩, rfl⟩
    exact ⟨l, rest, rfl, rfl, h⟩
  · rintro ⟨l, rest, rfl, rfl, h⟩
    exact ⟨_, ⟨l, rest, rfl, rfl, h⟩, rfl⟩

namespace Kind

/-- What is cut off is a lexeme, and no further character could go on with it. -/
def Cuts (k : Kind) (l rest : List Char) : Prop :=
  k.fits l = true ∧ ∀ c ∈ rest.head?, k.goesOn c = false

theorem cuts_nil {k : Kind} {n : Nat} :
    ¬ ∃ l rest, [] = l ++ rest ∧ l.length = n ∧ k.Cuts l rest := by
  rintro ⟨l, rest, hcs, -, hcut⟩
  exact ne_nil_of_fits hcut.1 (List.append_eq_nil_iff.mp hcs.symm).1

/-- A lexeme that starts with a character: the rest of it is cut off the rest. -/
theorem cuts_cons {k : Kind} {c : Char} {cs : List Char} {n : Nat} :
    (∃ l rest, c :: cs = l ++ rest ∧ l.length = n ∧ k.Cuts l rest) ↔
      ∃ l rest, cs = l ++ rest ∧ l.length + 1 = n ∧ k.Cuts (c :: l) rest := by
  constructor
  · rintro ⟨l, rest, hcs, rfl, hcut⟩
    obtain ⟨c', l, rfl⟩ := List.exists_cons_of_ne_nil (ne_nil_of_fits hcut.1)
    cases hcs
    exact ⟨l, rest, rfl, rfl, hcut⟩
  · rintro ⟨l, rest, rfl, rfl, hcut⟩
    exact ⟨c :: l, rest, rfl, rfl, hcut⟩

theorem munch_word_eq_some_iff {w : Word} {cs : List Char} {n : Nat} :
    (Kind.word w).munch cs = some n ↔
      ∃ l rest, cs = l ++ rest ∧ l.length = n ∧ (Kind.word w).Cuts l rest := by
  simp only [munch, Cuts, fits, decide_eq_true_eq]
  constructor
  · intro h
    split at h
    · rename_i hprefix
      obtain ⟨rest, rfl⟩ := hprefix
      cases h
      exact ⟨_, rest, rfl, String.length_toList, rfl, fun _ _ => rfl⟩
    · cases h
  · rintro ⟨l, rest, rfl, rfl, rfl, -⟩
    rw [if_pos ⟨rest, rfl⟩, String.length_toList]

/-- Scanning cuts a lexeme off as far as it goes. -/
theorem munch_eq_some_iff {k : Kind} {cs : List Char} {n : Nat} :
    k.munch cs = some n ↔ ∃ l rest, cs = l ++ rest ∧ l.length = n ∧ k.Cuts l rest := by
  cases k with
  | word w => exact munch_word_eq_some_iff
  | digits => exact munchSome_eq_some_iff
  | type =>
    cases cs with
    | nil => exact iff_of_false (by simp [munch]) cuts_nil
    | cons c cs =>
      rw [cuts_cons]
      by_cases hc : c = 'i'
      · simp only [munch, Cuts, fits, goesOn, hc, if_true, decide_true, Bool.true_and,
          munchSome_succ_eq_some_iff]
      · simp [munch, Cuts, fits, hc]
  | number =>
    cases cs with
    | nil => exact iff_of_false (by simp [munch]) cuts_nil
    | cons c cs =>
      rw [cuts_cons]
      by_cases hc : c = '-'
      · simp only [munch, Cuts, fits, goesOn, hc, if_true, munchSome_succ_eq_some_iff]
      · simp only [munch, Cuts, fits, goesOn, hc, if_false]
        exact munchSome_eq_some_iff.trans (cuts_cons (k := .digits))
  | name =>
    cases cs with
    | nil => exact iff_of_false (by simp [munch]) cuts_nil
    | cons c cs =>
      rw [cuts_cons]
      by_cases hc : c = '%' ∨ c = '@'
      · have hhead : (decide (c = '%') || decide (c = '@')) = true := by simpa using hc
        simp only [munch, Cuts, fits, goesOn, if_pos hc, hhead, Bool.true_and,
          munchSome_succ_eq_some_iff]
      · have hhead : (decide (c = '%') || decide (c = '@')) = false := by simpa using hc
        simp [munch, Cuts, fits, if_neg hc, hhead]

end Kind

end Ir

/-! ### The patterns of lexemes -/

namespace Regex
variable {text : Array Char} {i : Nat}

theorem run_char_nil (t : CharTest) (k : Nat → Outcome) (h : text.toList.drop i = []) :
    run text (.char t) i k = none := by
  have hget : text[i]? = none := by
    rw [← Array.getElem?_toList, ← List.head?_drop, h]
    rfl
  simp [run, hget]

theorem run_char_cons (t : CharTest) (k : Nat → Outcome) {c : Char} {cs : List Char}
    (h : text.toList.drop i = c :: cs) :
    run text (.char t) i k = if t.passes c then k (i + 1) else none := by
  have hget : text[i]? = some c := by
    rw [← Array.getElem?_toList, ← List.head?_drop, h]
    rfl
  simp [run, hget]

theorem drop_succ {c : Char} {cs : List Char} (h : text.toList.drop i = c :: cs) :
    text.toList.drop (i + 1) = cs := by
  rw [← List.tail_drop, h]
  rfl

/-- One character or more that pass a test. -/
def someOf (t : CharTest) : Regex := .rep .greedy 1 none (.char t)

theorem run_someOf (t : CharTest) (i : Nat) :
    run text (someOf t) i some = (Ir.munchSome t.passes (text.toList.drop i)).map (i + ·) := by
  show rounds _ _ _ _ _ _ _ _ = _
  rw [rounds_char t 1 0 (by omega)]
  by_cases hn : ((text.toList.drop i).takeWhile t.passes).length = 0
  · simp [Ir.munchSome, hn]
  · simp [Ir.munchSome, hn, show 1 ≤ _ from Nat.one_le_iff_ne_zero.mpr hn]

theorem run_optional_nil (t : CharTest) (k : Nat → Outcome) (h : text.toList.drop i = []) :
    run text (.rep .greedy 0 (some 1) (.char t)) i k = k i := by
  show rounds _ _ _ _ (text.size - i + 1) _ _ _ = _
  simp [rounds, run_char_nil t _ h]

/-- A character that may be left out. -/
theorem run_optional_cons (t : CharTest) (k : Nat → Outcome) {c : Char} {cs : List Char}
    (h : text.toList.drop i = c :: cs) :
    run text (.rep .greedy 0 (some 1) (.char t)) i k =
      (if t.passes c then k (i + 1) else none).orElse fun _ => k i := by
  have hi : i < text.size := by
    have := congrArg List.length h
    simp at this
    omega
  obtain ⟨n, hn⟩ : ∃ n, text.size - i = n + 1 := ⟨text.size - i - 1, by omega⟩
  show rounds _ _ _ _ (text.size - i + 1) _ _ _ = _
  simp [rounds, hn, run_char_cons t _ h]

end Regex

namespace Ir

/-- The pattern that a kind of lexemes is recognised by. -/
def Kind.pattern? : Kind → Option String
  | .word _ => none
  | .digits => some "[0-9]+"
  | .type => some "i[0-9]+"
  | .number => some "-?[0-9]+"
  | .name => some "[%@][-a-zA-Z$._0-9]+"

/-- The test that the characters of names pass. -/
def nameTest : CharTest :=
  .either (.either (.either (.either (.either (.either (.one '-') (.range 'a' 'z'))
    (.range 'A' 'Z')) (.one '$')) (.one '.')) (.one '_')) (.range '0' '9')

theorem passes_nameTest : nameTest.passes = isNameChar := by
  funext c
  simp only [nameTest, CharTest.passes, isNameChar, isAlphanum_eq]
  ac_rfl

theorem passes_digitTest : (CharTest.range '0' '9').passes = Char.isDigit := rfl

/-- A pattern comes to what is cut off. -/
def Kind.Matches (k : Kind) (r : Regex) : Prop :=
  ∀ text pos, r.matchAt? text pos = (k.munch (text.toList.drop pos)).map (pos + ·)

theorem matches_digits : Kind.digits.Matches (.cat .empty (.someOf (.range '0' '9'))) :=
  fun _ pos => Regex.run_someOf _ pos

/-- A character that has to come first. -/
theorem run_first (t u : CharTest) (text : Array Char) (pos : Nat) :
    (Regex.cat (.cat .empty (.char t)) (.someOf u)).matchAt? text pos =
      match text.toList.drop pos with
      | [] => none
      | c :: cs =>
        if t.passes c then ((munchSome u.passes cs).map (· + 1)).map (pos + ·) else none := by
  show Regex.run text (.char t) pos (fun j => Regex.run text _ j some) = _
  cases hdrop : text.toList.drop pos with
  | nil => exact Regex.run_char_nil _ _ hdrop
  | cons c cs =>
    have hshift : ((pos + 1) + ·) = (pos + ·) ∘ (· + 1) := by funext n; simp; omega
    dsimp only
    rw [Regex.run_char_cons _ _ hdrop, Regex.run_someOf, Regex.drop_succ hdrop, Option.map_map,
      hshift]

theorem matches_type :
    Kind.type.Matches (.cat (.cat .empty (.char (.one 'i'))) (.someOf (.range '0' '9'))) := by
  intro text pos
  rw [run_first, passes_digitTest]
  cases text.toList.drop pos with
  | nil => rfl
  | cons c cs => by_cases hc : c = 'i' <;> simp [CharTest.passes, Kind.munch, hc]

theorem matches_name :
    Kind.name.Matches (.cat (.cat .empty (.char (.either (.one '%') (.one '@'))))
      (.someOf nameTest)) := by
  intro text pos
  rw [run_first, passes_nameTest]
  cases text.toList.drop pos with
  | nil => rfl
  | cons c cs => by_cases hc : c = '%' ∨ c = '@' <;> simp [CharTest.passes, Kind.munch, hc]

theorem matches_number :
    Kind.number.Matches (.cat (.cat .empty (.rep .greedy 0 (some 1) (.char (.one '-'))))
      (.someOf (.range '0' '9'))) := by
  intro text pos
  show Regex.run text (.rep _ _ _ _) pos (fun j => Regex.run text _ j some) = _
  simp only [Regex.run_someOf, passes_digitTest]
  cases hdrop : text.toList.drop pos with
  | nil =>
    rw [Regex.run_optional_nil _ _ hdrop, hdrop]
    rfl
  | cons c cs =>
    rw [Regex.run_optional_cons _ _ hdrop, Regex.drop_succ hdrop, hdrop]
    by_cases hc : c = '-'
    · -- a sign alone is no number, with the sign or without it
      have hsign : munchSome Char.isDigit ('-' :: cs) = none := by simp [munchSome]
      cases hcs : munchSome Char.isDigit cs with
      | none => simp [CharTest.passes, Kind.munch, hc, hcs, hsign]
      | some n =>
        simp [CharTest.passes, Kind.munch, hc, hcs]
        omega
    · simp [CharTest.passes, Kind.munch, hc]

theorem compile_pattern {k : Kind} {p : String} (h : k.pattern? = some p) :
    ∃ r : Regex, PatternLibrary.compile p = .ok r.toPattern ∧ k.Matches r := by
  cases k with
  | word w => cases h
  | digits => cases h; exact ⟨_, rfl, matches_digits⟩
  | type => cases h; exact ⟨_, rfl, matches_type⟩
  | number => cases h; exact ⟨_, rfl, matches_number⟩
  | name => cases h; exact ⟨_, rfl, matches_name⟩

/-! ### One lexeme -/

open Reading (skip)

/-- Scans a lexeme with the white space around it: where it goes on, and the lexeme's token. -/
def scan (source : Source) (k : Kind) (pos : Nat) : Option (Nat × Token) :=
  let start := skip source pos
  (k.munch (source.chars.toList.drop start)).map fun n =>
    (skip source (start + n), source.token start ((start + n : Nat) : Int))

/-- No white space comes first. -/
def Tight (s : String) : Prop := ∀ c ∈ s.toList.head?, Text.isSpace c = false

theorem skip_append {text before gap rest : String} (h : text = before ++ gap ++ rest)
    (hgap : isBlank gap = true) (hrest : Tight rest) :
    skip (.ofString text) before.length = (before ++ gap).length := by
  have hdrop : text.toList.drop before.length = gap.toList ++ rest.toList := by
    rw [h, String.append_assoc, String.toList_append, ← String.length_toList, List.drop_left,
      String.toList_append]
  rw [skip, Source.toList_ofString, hdrop, takeWhile_append_stop (List.all_eq_true.mp hgap) hrest,
    String.length_append, String.length_toList]

theorem skip_tight {text before rest : String} (h : text = before ++ rest) (hrest : Tight rest) :
    skip (.ofString text) before.length = before.length := by
  have : skip (.ofString text) before.length = (before ++ "").length :=
    skip_append (by simpa using h) rfl hrest
  simpa using this

/-- The white space that a text starts with, and the rest. -/
theorem exists_tight (s : String) : ∃ gap rest, s = gap ++ rest ∧ isBlank gap = true ∧ Tight rest := by
  refine ⟨.ofList (s.toList.takeWhile Text.isSpace), .ofList (s.toList.dropWhile Text.isSpace), ?_, ?_,
    fun c hc => ?_⟩
  · rw [← String.toList_inj, String.toList_append, String.toList_ofList, String.toList_ofList,
      List.takeWhile_append_dropWhile]
  · rw [isBlank, String.toList_ofList]
    exact List.all_takeWhile
  · rw [String.toList_ofList] at hc
    have := List.head?_dropWhile_not Text.isSpace s.toList
    rwa [hc] at this

/-- Where no white space comes first, scanning cuts off a lexeme and the gap after it. -/
theorem scan_eq_some_iff {text before rest : String} (h : text = before ++ rest)
    (hrest : Tight rest) {k : Kind} {mid : Nat} {t : Token} :
    scan (.ofString text) k before.length = some (mid, t) ↔
      ∃ l g rest', rest = l ++ g ++ rest' ∧ k.Cuts l.toList (g ++ rest').toList ∧
        isBlank g = true ∧ Tight rest' ∧ t = .after before l ∧ mid = (before ++ l ++ g).length := by
  have hskip : skip (.ofString text) before.length = before.length := skip_tight h hrest
  have hdrop : text.toList.drop before.length = rest.toList := by
    rw [h, String.toList_append, ← String.length_toList, List.drop_left]
  have htext : ∀ {l g rest'}, rest = l ++ g ++ rest' → text = before ++ l ++ (g ++ rest') := by
    rintro l g rest' rfl
    rw [h, String.append_assoc, String.append_assoc]
  have hcut : ∀ {l g rest'}, rest = l ++ g ++ rest' → isBlank g = true → Tight rest' →
      skip (.ofString text) (before.length + l.length) = (before ++ l ++ g).length := by
    intro l g rest' hsplit hg hrest'
    rw [← String.length_append]
    exact skip_append (by rw [htext hsplit, ← String.append_assoc]) hg hrest'
  simp only [scan, hskip, Source.toList_ofString, hdrop, Option.map_eq_some_iff, Prod.mk.injEq,
    Kind.munch_eq_some_iff]
  constructor
  · rintro ⟨_, ⟨l, cs, hcs, rfl, hcuts⟩, rfl, rfl⟩
    obtain ⟨l, rfl⟩ : ∃ s : String, s.toList = l := ⟨.ofList l, String.toList_ofList⟩
    obtain ⟨after, rfl⟩ : ∃ s : String, s.toList = cs := ⟨.ofList cs, String.toList_ofList⟩
    obtain ⟨g, rest', rfl, hblank, htight⟩ := exists_tight after
    have hsplit : rest = l ++ g ++ rest' := by
      rw [← String.toList_inj, hcs, ← String.toList_append, String.append_assoc]
    refine ⟨l, g, rest', hsplit, hcuts, hblank, htight, ?_, ?_⟩
    · rw [String.length_toList]
      exact Source.token_after (htext hsplit)
    · rw [String.length_toList]
      exact hcut hsplit hblank htight
  · rintro ⟨l, g, rest', hsplit, hcuts, hg, hrest', rfl, rfl⟩
    refine ⟨l.length, ⟨l.toList, (g ++ rest').toList, ?_, String.length_toList, hcuts⟩,
      hcut hsplit hg hrest', ?_⟩
    · rw [hsplit, String.append_assoc, String.toList_append]
    · exact Source.token_after (htext hsplit)

theorem skip_bounds (source : Source) {pos : Nat} (h : pos ≤ source.length) :
    pos ≤ skip source pos ∧ skip source pos ≤ source.length := by
  have hlen := (List.takeWhile_sublist Text.isSpace (l := source.chars.toList.drop pos)).length_le
  have hsize : source.chars.toList.length = source.length := rfl
  rw [List.length_drop, hsize] at hlen
  unfold skip
  omega

/-- A lexeme takes something, and no more than there is. -/
theorem scan_onward {source : Source} {k : Kind} {pos mid : Nat} {t : Token}
    (hpos : pos ≤ source.length) (h : scan source k pos = some (mid, t)) :
    pos < mid ∧ mid ≤ source.length := by
  obtain ⟨n, hn, heq⟩ := Option.map_eq_some_iff.mp h
  obtain ⟨rfl, -⟩ := Prod.mk.inj heq
  obtain ⟨l, rest, hsplit, rfl, hcuts⟩ := Kind.munch_eq_some_iff.mp hn
  have hstart := skip_bounds source hpos
  have hne : 0 < l.length := List.length_pos_of_ne_nil (Kind.ne_nil_of_fits hcuts.1)
  have hlen := congrArg List.length hsplit
  have hsize : source.chars.toList.length = source.length := rfl
  rw [List.length_drop, hsize, List.length_append] at hlen
  have hstop := skip_bounds source (show skip source pos + l.length ≤ source.length by omega)
  omega

/-! ### Lexemes in a row -/

/-- Scanning lexemes of these kinds one after another yields these tokens. -/
def Chain (source : Source) : (pos : Nat) → List (Kind × Token) → (stop : Nat) → Prop
  | pos, [], stop => pos = stop
  | pos, (k, t) :: rest, stop => ∃ mid, scan source k pos = some (mid, t) ∧ Chain source mid rest stop

theorem chain_append {source : Source} : ∀ {ps qs : List (Kind × Token)} {pos stop : Nat},
    Chain source pos (ps ++ qs) stop ↔
      ∃ mid, Chain source pos ps mid ∧ Chain source mid qs stop
  | [], qs, pos, stop => by simp [Chain]
  | (k, t) :: ps, qs, pos, stop => by
    simp only [List.cons_append, Chain, chain_append]
    constructor
    · rintro ⟨m, hscan, mid, hps, hqs⟩
      exact ⟨mid, ⟨m, hscan, hps⟩, hqs⟩
    · rintro ⟨mid, ⟨m, hscan, hps⟩, hqs⟩
      exact ⟨m, hscan, mid, hps, hqs⟩

theorem chain_onward {source : Source} : ∀ {ps : List (Kind × Token)} {pos stop : Nat},
    pos ≤ source.length → Chain source pos ps stop →
    pos + ps.length ≤ stop ∧ stop ≤ source.length
  | [], _, _, hpos, h => by cases h; exact ⟨Nat.le_refl _, hpos⟩
  | _ :: ps, pos, stop, hpos, ⟨mid, hscan, hrest⟩ => by
    have hmid := scan_onward hpos hscan
    have ih := chain_onward hmid.2 hrest
    rw [List.length_cons]
    omega

/-- For each lexeme, could the next one go on with it? -/
def crowds : List (Kind × String) → List Bool
  | [] => []
  | (k, _) :: rest => (rest.head?.any fun p => p.2.toList.head?.any k.goesOn) :: crowds rest

theorem length_crowds : ∀ ps : List (Kind × String), (crowds ps).length = ps.length
  | [] => rfl
  | _ :: ps => by rw [crowds, List.length_cons, length_crowds ps, List.length_cons]

theorem goesOn_of_isSpace {k : Kind} {c : Char} (h : Text.isSpace c = true) :
    k.goesOn c = false := by
  have hdigit : c.isDigit = false :=
    Bool.eq_false_iff.mpr fun hc => by rw [isSpace_of_isDigit hc] at h; cases h
  cases k with
  | word w => rfl
  | name => exact Bool.eq_false_iff.mpr fun hc => by rw [isSpace_of_isNameChar hc] at h; cases h
  | digits => exact hdigit
  | type => exact hdigit
  | number => exact hdigit

/-- A gap keeps a lexeme apart from what follows: nothing goes on with the lexeme. -/
theorem gapFor_iff {k : Kind} {gap rest : String} :
    GapFor (rest.toList.head?.any k.goesOn) gap ↔
      isBlank gap = true ∧ ∀ c ∈ (gap ++ rest).toList.head?, k.goesOn c = false := by
  refine and_congr_right fun hblank => ?_
  by_cases hgap : gap = ""
  · rw [hgap, String.empty_append]
    cases rest.toList.head? <;> simp
  · have hne : gap.toList ≠ [] := fun h => hgap (String.toList_inj.mp h)
    obtain ⟨c, cs, hcs⟩ := List.exists_cons_of_ne_nil hne
    have hspace : Text.isSpace c = true :=
      List.all_eq_true.mp hblank c (hcs ▸ List.mem_cons_self ..)
    simp [hgap, hcs, goesOn_of_isSpace hspace]

/-- Each lexeme is one of its kind, with a gap after it that keeps it apart from the next one. -/
structure Laid (ps : List (Kind × String)) (gaps : List String) : Prop where
  fits : ∀ p ∈ ps, p.1.fits p.2.toList = true
  spread : List.Forall₂ GapFor (crowds ps) gaps

namespace Laid
variable {ps : List (Kind × String)} {gaps : List String}

theorem length_gaps (h : Laid ps gaps) : gaps.length = ps.length := by
  rw [← h.spread.length_eq, length_crowds]

/-- What follows a lexeme starts with the next one. -/
theorem head_spaced (h : Laid ps gaps) (test : Char → Bool) :
    (spaced (ps.map (·.2)) gaps).toList.head?.any test =
      ps.head?.any fun p => p.2.toList.head?.any test := by
  match ps, gaps, h.length_gaps with
  | [], [], _ => rfl
  | (k, l) :: ps, g :: gs, _ =>
    obtain ⟨c, cs, hcs⟩ :=
      List.exists_cons_of_ne_nil (Kind.ne_nil_of_fits (h.fits _ (List.mem_cons_self ..)))
    dsimp only at hcs
    simp [hcs]

theorem tight (h : Laid ps gaps) : Tight (spaced (ps.map (·.2)) gaps) := by
  match ps, gaps, h.length_gaps with
  | [], [], _ => rintro c ⟨⟩
  | (k, l) :: ps, g :: gs, _ =>
    have hfits := h.fits _ (List.mem_cons_self ..)
    exact spaced_head (Kind.ne_nil_of_fits hfits) (Kind.isSpace_of_fits hfits)

theorem cons_iff {k : Kind} {l g : String} : Laid ((k, l) :: ps) (g :: gaps) ↔
    k.Cuts l.toList (g ++ spaced (ps.map (·.2)) gaps).toList ∧ isBlank g = true ∧
      Laid ps gaps := by
  constructor
  · rintro ⟨hfits, hspread⟩
    obtain ⟨hl, hfits⟩ := List.forall_mem_cons.mp hfits
    obtain ⟨hgap, hspread⟩ := List.forall₂_cons.mp hspread
    have hlaid : Laid ps gaps := ⟨hfits, hspread⟩
    rw [← hlaid.head_spaced, gapFor_iff] at hgap
    exact ⟨⟨hl, hgap.2⟩, hgap.1, hlaid⟩
  · rintro ⟨⟨hl, hstop⟩, hblank, hlaid⟩
    refine ⟨List.forall_mem_cons.mpr ⟨hl, hlaid.fits⟩, List.forall₂_cons.mpr ⟨?_, hlaid.spread⟩⟩
    rw [← hlaid.head_spaced, gapFor_iff]
    exact ⟨hblank, hstop⟩

end Laid

/-- The lexemes of tokens. -/
def written (ps : List (Kind × Token)) : List (Kind × String) := ps.map fun p => (p.1, p.2.text)

/-- Lexemes can be scanned in a row, up to the end of the text, exactly where they stand there with gaps
that keep them apart. -/
theorem chain_iff {text : String} : ∀ {ps : List (Kind × Token)} {before rest : String},
    text = before ++ rest → Tight rest →
    (Chain (.ofString text) before.length ps text.length ↔
      ∃ gaps, Laid (written ps) gaps ∧ rest = spaced ((written ps).map (·.2)) gaps ∧
        ps.map (·.2) = tokensFrom before ((written ps).map (·.2)) gaps)
  | [], before, rest, h, _ => by
    have hend : Chain (.ofString text) before.length [] text.length ↔ rest = "" := by
      simp [Chain, h]
    refine hend.trans ⟨fun hrest => ⟨[], ⟨by simp [written], .nil⟩, hrest, rfl⟩, ?_⟩
    rintro ⟨gaps, -, hrest, -⟩
    exact hrest
  | (k, t) :: ps, before, rest, h, hrest => by
    constructor
    · rintro ⟨mid, hscan, hchain⟩
      obtain ⟨l, g, rest', rfl, hcuts, hblank, htight, rfl, rfl⟩ :=
        (scan_eq_some_iff h hrest).mp hscan
      have htext : text = (before ++ l ++ g) ++ rest' := by simp [h, String.append_assoc]
      obtain ⟨gs, hlaid, rfl, htokens⟩ := (chain_iff htext htight).mp hchain
      exact ⟨g :: gs, Laid.cons_iff.mpr ⟨hcuts, hblank, hlaid⟩, rfl, congrArg _ htokens⟩
    · rintro ⟨gaps, hlaid, rfl, htokens⟩
      obtain ⟨g, gs, rfl⟩ : ∃ g gs, gaps = g :: gs := by
        cases gaps with
        | nil => cases hlaid.length_gaps
        | cons g gs => exact ⟨g, gs, rfl⟩
      obtain ⟨hcuts, hblank, hlaid⟩ := Laid.cons_iff.mp hlaid
      obtain ⟨ht, htokens⟩ := List.cons.inj htokens
      have htext : text = (before ++ t.text ++ g) ++ spaced ((written ps).map (·.2)) gs := by
        rw [h]
        simp [written, String.append_assoc]
      exact ⟨_, (scan_eq_some_iff h hrest).mpr ⟨t.text, g, _, rfl, hcuts, hblank, hlaid.tight, ht,
        rfl⟩, (chain_iff htext hlaid.tight).mpr ⟨gs, hlaid, rfl, htokens⟩⟩

end Ir
end PegScribe
