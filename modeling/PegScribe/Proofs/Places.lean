import PegScribe.Packrat
import PegScribe.Proofs.Patterns

/-!
Places: how far a match can get from the place where it starts.

`Onward` bounds the end of every match. Inside the text a match never goes back; one that starts past
the end of the text either stays or falls back to the end, once. So the rounds of a repetition that
move are few, and `roundsFrom` counts enough of them.
-/
namespace PegScribe.Packrat

/-- May a match that starts at `pos` end at `stop`? -/
def Onward (text : Array Char) (pos stop : Int) : Prop :=
  if pos ≤ text.size then pos ≤ stop ∧ stop ≤ text.size else stop = pos ∨ stop = text.size

theorem Onward.refl (text : Array Char) (pos : Int) : Onward text pos pos := by
  unfold Onward
  split <;> omega

theorem Onward.trans {text : Array Char} {a b c : Int} (hab : Onward text a b)
    (hbc : Onward text b c) : Onward text a c := by
  unfold Onward at *
  split at hab <;> split at hbc <;> split <;> omega

theorem Onward.bounds {text : Array Char} {pos stop : Int} (h : Onward text pos stop)
    (hpos : pos ≤ text.size) : pos ≤ stop ∧ stop ≤ text.size := by
  unfold Onward at h
  rwa [if_pos hpos] at h

/-- A round that moves leaves fewer rounds to come. -/
theorem roundsFrom_lt {text : Array Char} {pos mid : Int} (h : Onward text pos mid)
    (hne : mid ≠ pos) : roundsFrom text mid < roundsFrom text pos := by
  unfold Onward at h
  unfold roundsFrom
  split at h <;> split <;> split <;> omega

theorem roundsFrom_pos (text : Array Char) (pos : Int) : 0 < roundsFrom text pos := by
  unfold roundsFrom
  split <;> omega

/-! ### Terminals -/

theorem clamp_le (text : Array Char) (pos : Int) : clamp text pos ≤ text.size := by
  unfold clamp
  split <;> omega

theorem le_clamp {text : Array Char} {pos : Int} (hpos : pos ≤ text.size) :
    pos ≤ clamp text pos := by
  unfold clamp
  split <;> omega

theorem clamp_of_inside {text : Array Char} {pos : Int} (h0 : 0 ≤ pos) (hpos : pos ≤ text.size) :
    clamp text pos = pos.toNat := by
  unfold clamp
  rw [if_neg (by omega)]
  omega

theorem standsAt_bound {text : Array Char} : ∀ {cs : List Char} {i : Nat},
    standsAt text cs i = true → i ≤ text.size → i + cs.length ≤ text.size
  | [], i, _, hi => by simpa using hi
  | c :: rest, i, h, _ => by
    simp only [standsAt, Bool.and_eq_true, decide_eq_true_eq] at h
    have hlt : i < text.size := (Array.getElem?_eq_some_iff.mp h.1).1
    have hrest := standsAt_bound h.2 (by omega)
    simp only [List.length_cons]
    omega

theorem literalEnd?_eq_some {text : Array Char} {t : String} {pos stop : Int}
    (h : literalEnd? text t pos = some stop) :
    pos ≤ text.size ∧ standsAt text t.toList (clamp text pos) = true ∧ stop = pos + t.length := by
  unfold literalEnd? at h
  split at h
  · rename_i hc
    simp only [Bool.and_eq_true, decide_eq_true_eq] at hc
    exact ⟨hc.1, hc.2, (Option.some.inj h).symm⟩
  · cases h

theorem literalEnd?_onward {text : Array Char} {t : String} {pos stop : Int}
    (h : literalEnd? text t pos = some stop) : Onward text pos stop := by
  obtain ⟨hpos, hstands, rfl⟩ := literalEnd?_eq_some h
  have hbound := standsAt_bound hstands (clamp_le text pos)
  have hle := le_clamp hpos
  rw [String.length_toList] at hbound
  unfold Onward
  rw [if_pos hpos]
  omega

theorem patternEnd?_eq_some {text : Array Char} {r : Pattern} {pos stop : Int}
    (h : patternEnd? text r pos = some stop) :
    ∃ j : Nat, r.matchAt? text (clamp text pos) = some j ∧ stop = j := by
  obtain ⟨j, hj, rfl⟩ := Option.map_eq_some_iff.mp h
  exact ⟨j, hj, rfl⟩

theorem patternEnd?_onward {text : Array Char} {r : Pattern} {pos stop : Int}
    (h : patternEnd? text r pos = some stop) : Onward text pos stop := by
  obtain ⟨j, hj, rfl⟩ := patternEnd?_eq_some h
  obtain ⟨hij, hj⟩ := Pattern.inside _ (clamp_le text pos) hj
  unfold Onward
  split
  · rename_i hpos
    have hle := le_clamp hpos
    omega
  · have hclamp : clamp text pos = text.size := by
      unfold clamp
      rw [if_neg (by omega)]
      omega
    omega

/-! ### Inside the text -/

/-- The place lies inside the text or at its end. -/
def Inside (text : Array Char) (pos : Int) : Prop := 0 ≤ pos ∧ pos ≤ text.size

/-- The characters of `t` stand in the text from `pos` on. -/
def StandsIn (text : Array Char) (t : String) (pos : Int) : Prop :=
  t.toList <+: text.toList.drop pos.toNat

instance (text : Array Char) (t : String) (pos : Int) : Decidable (StandsIn text t pos) :=
  inferInstanceAs (Decidable (t.toList <+: text.toList.drop pos.toNat))

theorem Onward.inside {text : Array Char} {pos stop : Int} (h : Onward text pos stop)
    (hpos : Inside text pos) : Inside text stop := by
  obtain ⟨hle, hstop⟩ := h.bounds hpos.2
  exact ⟨by have := hpos.1; omega, hstop⟩

theorem Inside.onward {text : Array Char} {pos stop : Int} (hpos : Inside text pos)
    (hle : pos ≤ stop) (hstop : stop ≤ text.size) : Onward text pos stop := by
  unfold Onward
  rw [if_pos hpos.2]
  exact ⟨hle, hstop⟩

theorem standsAt_iff {text : Array Char} : ∀ {cs : List Char} {i : Nat},
    standsAt text cs i = true ↔ cs <+: text.toList.drop i
  | [], i => by simp [standsAt]
  | c :: rest, i => by
    simp only [standsAt, Bool.and_eq_true, decide_eq_true_eq]
    rw [standsAt_iff]
    by_cases hi : i < text.size
    · have hdrop : text.toList.drop i = text[i] :: text.toList.drop (i + 1) := by
        rw [List.drop_eq_getElem_cons (by simpa using hi), Array.getElem_toList]
      rw [hdrop, List.cons_prefix_cons, Array.getElem?_eq_getElem hi, Option.some.injEq]
      exact ⟨fun h => ⟨h.1.symm, h.2⟩, fun h => ⟨h.1.symm, h.2⟩⟩
    · have hdrop : text.toList.drop i = [] := List.drop_eq_nil_of_le (by simpa using hi)
      rw [hdrop, Array.getElem?_eq_none (by omega)]
      simp

theorem literalEnd?_of_standsIn {text : Array Char} {t : String} {pos : Int}
    (hpos : Inside text pos) (h : StandsIn text t pos) :
    literalEnd? text t pos = some (pos + t.length) := by
  unfold literalEnd?
  rw [clamp_of_inside hpos.1 hpos.2, standsAt_iff.mpr h]
  simp [hpos.2]

theorem literalEnd?_of_not_standsIn {text : Array Char} {t : String} {pos : Int}
    (hpos : Inside text pos) (h : ¬ StandsIn text t pos) : literalEnd? text t pos = none := by
  have hstands : ¬ standsAt text t.toList pos.toNat = true := fun hs => h (standsAt_iff.mp hs)
  unfold literalEnd?
  rw [clamp_of_inside hpos.1 hpos.2]
  simp [hstands]

theorem patternEnd?_inside {text : Array Char} {pos : Int} (hpos : Inside text pos) (r : Pattern) :
    patternEnd? text r pos = (r.matchAt? text pos.toNat).map fun (stop : Nat) => (stop : Int) := by
  unfold patternEnd?
  rw [clamp_of_inside hpos.1 hpos.2]

end PegScribe.Packrat
