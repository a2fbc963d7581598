import PegScribe.Pattern
import PegScribe.Regex.Matcher
import PegScribe.Regex.Parser

/-!
The library for regular expressions that comes with the program: patterns are read into expressions, which
match by backtracking.

A match never ends before the place where it was tried, and never outside the text (`run_endsWithin`). Rounds
of one test take as many characters as pass it (`rounds_char`).
-/
namespace PegScribe
namespace Regex

/-! ### Where matches end -/

/-- Every end that `step` hands on lies at or after its start, and inside the text. -/
def EndsWithin (text : Array Char) (step : Nat → (Nat → Outcome) → Outcome) : Prop :=
  ∀ i k e, i ≤ text.size → step i k = some e → ∃ j, i ≤ j ∧ j ≤ text.size ∧ k j = some e

theorem eq_some_of_orElse {a : Outcome} {b : Unit → Outcome} {e : Nat}
    (h : a.orElse b = some e) : a = some e ∨ b () = some e := by
  cases a with
  | none => exact .inr h
  | some e' => exact .inl h

theorem rounds_endsWithin {text : Array Char} {body : Nat → (Nat → Outcome) → Outcome}
    (hbody : EndsWithin text body) (eager : Bool) (least : Nat) (most : Option Nat) :
    ∀ budget done, EndsWithin text (rounds body eager least most budget done)
  | 0, _ => by intro i k e _ h; simp [rounds] at h
  | budget + 1, done => by
    intro i k e hi h
    -- one more round, then either the rest or further rounds
    have hagain : ∀ e, (if most.all (done < ·) then
        body i fun j => if j = i then k j else rounds body eager least most budget (done + 1) j k
        else none) = some e → ∃ j, i ≤ j ∧ j ≤ text.size ∧ k j = some e := by
      intro e he
      split at he
      · obtain ⟨j, hij, hj, hk⟩ := hbody i _ e hi he
        split at hk
        · exact ⟨j, hij, hj, hk⟩
        · obtain ⟨j', hjj', hj', hk'⟩ := rounds_endsWithin hbody eager least most budget _ j k e hj hk
          exact ⟨j', by omega, hj', hk'⟩
      · cases he
    have hstay : k i = some e → ∃ j, i ≤ j ∧ j ≤ text.size ∧ k j = some e :=
      fun hk => ⟨i, Nat.le_refl i, hi, hk⟩
    rw [rounds] at h
    split at h
    · exact hagain e h
    · split at h
      · rcases eq_some_of_orElse h with h | h
        · exact hagain e h
        · exact hstay h
      · rcases eq_some_of_orElse h with h | h
        · exact hstay h
        · exact hagain e h

/-- Without second thoughts: the first end is taken, and the rest goes on from there. -/
theorem endsWithin_once {text : Array Char} {step : Nat → (Nat → Outcome) → Outcome}
    (hstep : EndsWithin text step) : EndsWithin text fun i k => (step i some).bind k := by
  intro i k e hi h
  obtain ⟨j, hj, hk⟩ := Option.bind_eq_some_iff.mp h
  obtain ⟨j', hij, hj', heq⟩ := hstep i some j hi hj
  cases heq
  exact ⟨j, hij, hj', hk⟩

theorem run_endsWithin (text : Array Char) : ∀ r : Regex, EndsWithin text (run text r)
  | .empty => fun i _ _ hi h => ⟨i, Nat.le_refl i, hi, h⟩
  | .char t => by
    intro i k e _ h
    rw [run] at h
    split at h
    · rename_i c hc
      split at h
      · have hlt : i < text.size := (Array.getElem?_eq_some_iff.mp hc).1
        exact ⟨i + 1, by omega, by omega, h⟩
      · cases h
    · cases h
  | .anchor a => by
    intro i k e hi h
    rw [run] at h
    split at h
    · exact ⟨i, Nat.le_refl i, hi, h⟩
    · cases h
  | .cat a b => by
    intro i k e hi h
    obtain ⟨j, hij, hj, h⟩ := run_endsWithin text a i _ e hi h
    obtain ⟨j', hjj', hj', h⟩ := run_endsWithin text b j k e hj h
    exact ⟨j', by omega, hj', h⟩
  | .alt a b => by
    intro i k e hi h
    rw [run] at h
    rcases eq_some_of_orElse h with h | h
    · exact run_endsWithin text a i k e hi h
    · exact run_endsWithin text b i k e hi h
  | .rep .greedy _ _ body => fun i k e hi h =>
    rounds_endsWithin (run_endsWithin text body) true _ _ _ _ i k e hi h
  | .rep .sparing _ _ body => fun i k e hi h =>
    rounds_endsWithin (run_endsWithin text body) false _ _ _ _ i k e hi h
  | .rep .possessive least most body => fun i k e hi h =>
    endsWithin_once (rounds_endsWithin (run_endsWithin text body) true least most
      (text.size - i + 1) 0) i k e hi h
  | .atomic body => fun i k e hi h => endsWithin_once (run_endsWithin text body) i k e hi h
  | .ahead positive body => by
    intro i k e hi h
    rw [run] at h
    split at h
    · exact ⟨i, Nat.le_refl i, hi, h⟩
    · cases h

/-- As a compiled pattern. -/
def toPattern (r : Regex) : Pattern where
  matchAt? := r.matchAt?
  inside := by
    intro text i j hi h
    obtain ⟨j', hij, hj, heq⟩ := run_endsWithin text r i some j hi h
    cases heq
    exact ⟨hij, hj⟩

/-! ### Rounds of a test -/

variable {text : Array Char}

/-- The rounds are over where there is no further one. -/
theorem rounds_none {body : Nat → (Nat → Outcome) → Outcome} {least budget done i : Nat}
    (h : ∀ k, body i k = none) :
    rounds body true least none (budget + 1) done i some = if least ≤ done then some i else none := by
  by_cases hlt : done < least
  · simp [rounds, h, hlt, Nat.not_le_of_lt hlt]
  · simp [rounds, h, hlt, Nat.le_of_not_lt hlt]

/-- As many rounds of one test as there are characters that pass it, if these are enough. -/
theorem rounds_char (t : CharTest) (least : Nat) : ∀ {budget : Nat} (done : Nat) {i : Nat},
    text.size - i < budget →
    rounds (run text (.char t)) true least none budget done i some =
      let n := ((text.toList.drop i).takeWhile t.passes).length
      if least ≤ done + n then some (i + n) else none
  | 0, _, _, h => by omega
  | budget + 1, done, i, h => by
    by_cases hi : i < text.size
    · have hdrop : text.toList.drop i = text[i] :: text.toList.drop (i + 1) := by
        rw [List.drop_eq_getElem_cons (by simpa using hi), Array.getElem_toList]
      have hget : text[i]? = some text[i] := Array.getElem?_eq_getElem hi
      rw [hdrop]
      by_cases hpass : t.passes text[i] = true
      · have hround : ∀ k, run text (.char t) i k = k (i + 1) := by
          intro k
          simp [run, hget, hpass]
        have hrest := rounds_char t least (done + 1) (show text.size - (i + 1) < budget by omega)
        rw [List.takeWhile_cons_of_pos hpass, List.length_cons]
        simp only [rounds, hround, hrest]
        generalize ((text.toList.drop (i + 1)).takeWhile t.passes).length = n
        by_cases hle : least ≤ done + 1 + n
        · simp [hle, show least ≤ done + (n + 1) by omega]
          omega
        · simp [hle, show ¬ least ≤ done + (n + 1) by omega, show done < least by omega]
      · have hround : ∀ k, run text (.char t) i k = none := by
          intro k
          simp [run, hget, hpass]
        rw [List.takeWhile_cons_of_neg hpass]
        exact rounds_none hround
    · have hdrop : text.toList.drop i = [] := List.drop_eq_nil_of_le (by simpa using hi)
      have hround : ∀ k, run text (.char t) i k = none := by
        intro k
        simp [run, Array.getElem?_eq_none (Nat.le_of_not_lt hi)]
      rw [hdrop]
      exact rounds_none hround

/-- What the pattern for white space means. -/
def blanks : Regex := .cat .empty (.rep .possessive 0 none (.char .space))

theorem matchAt?_blanks (text : Array Char) (i : Nat) :
    blanks.matchAt? text i = some (i + ((text.toList.drop i).takeWhile Text.isSpace).length) := by
  show (rounds (run text (.char .space)) true 0 none (text.size - i + 1) 0 i some).bind some = _
  rw [rounds_char .space 0 0 (by omega)]
  rfl

end Regex

/-- The library for regular expressions. -/
instance Regex.library : PatternLibrary where
  compile source :=
    match Regex.parse source with
    | .ok r => .ok r.toPattern
    | .error e => .error e.message
  blanks := Regex.blanks.toPattern
  compile_blanks := rfl
  matchAt?_blanks := Regex.matchAt?_blanks

end PegScribe
