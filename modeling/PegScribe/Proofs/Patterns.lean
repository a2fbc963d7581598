import PegScribe.Registry

/-!
Patterns: what a table of compiled patterns makes of a pattern.

A table says the same of a pattern before and after it has been compiled.
-/
namespace PegScribe.PatternTable
variable [PatternLibrary]

/-- What a pattern means: the compiled form in the table, else what its notation says. -/
def meaning? (t : PatternTable) (source : String) : Option Pattern :=
  match Ledger.get? t source with
  | some r => some r
  | none => (PatternLibrary.compile source).toOption

theorem compile_ok {t t' : PatternTable} {source : String} {r : Pattern}
    (h : t.compile source = .ok (r, t')) :
    t.meaning? source = some r ∧ t'.meaning? = t.meaning? := by
  unfold compile at h
  split at h
  · rename_i r' hr
    cases h
    exact ⟨by simp [meaning?, hr], rfl⟩
  · rename_i hr
    split at h
    · rename_i r' hp
      cases h
      refine ⟨by simp [meaning?, hr, hp, Except.toOption], funext fun s => ?_⟩
      by_cases hs : source = s
      · subst hs; simp [meaning?, hr, hp, Except.toOption]
      · simp [meaning?, hs]
    · cases h

theorem compile_of_meaning? {t : PatternTable} {source : String} {r : Pattern}
    (h : t.meaning? source = some r) : ∃ t', t.compile source = .ok (r, t') := by
  unfold meaning? at h
  cases hg : Ledger.get? t source with
  | some r' =>
    rw [hg] at h; cases h
    exact ⟨t, by simp [compile, hg]⟩
  | none =>
    cases hp : PatternLibrary.compile source with
    | error e => rw [hg, hp] at h; cases h
    | ok r' =>
      rw [hg, hp] at h; cases h
      exact ⟨Ledger.insert t source r, by simp only [compile, hg, hp]⟩

end PegScribe.PatternTable
