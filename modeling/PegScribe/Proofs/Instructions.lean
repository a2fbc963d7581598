import Mathlib.Data.List.Chain
import PegScribe.Proofs.Scanning

/-!
Instructions: reading one after another, each by its own lexemes, undoes printing.

Two kinds of lexemes that are tried at one place never start with the same character, so the first
alternative that can be read is the only one: an instruction is read exactly where its lexemes can be
scanned in a row (`readInstr_of_chain`, `chain_of_readInstr`).
-/
namespace PegScribe.Ir
open Reading (skip)

/-! ### First characters -/

/-- May a lexeme of the kind start with the character? -/
def Kind.opens : Kind → Char → Bool
  | .word w, c => w.text.toList.head? = some c
  | .digits, c => c.isDigit
  | .type, c => c = 'i'
  | .number, c => c = '-' || c.isDigit
  | .name, c => c = '%' || c = '@'

theorem opens_of_fits {k : Kind} {cs : List Char} (h : k.fits cs = true) :
    ∃ c rest, cs = c :: rest ∧ k.opens c = true := by
  obtain ⟨c, cs, rfl⟩ := List.exists_cons_of_ne_nil (Kind.ne_nil_of_fits h)
  refine ⟨c, cs, rfl, ?_⟩
  cases k with
  | word w =>
    simp only [Kind.fits, decide_eq_true_eq] at h
    simp [Kind.opens, ← h]
  | digits => exact all_of_some? h c (List.mem_cons_self ..)
  | type =>
    simp only [Kind.fits, Bool.and_eq_true] at h
    exact h.1
  | number =>
    simp only [Kind.fits] at h
    split at h
    · rename_i hc
      simp [Kind.opens, hc]
    · simp [Kind.opens, all_of_some? h c (List.mem_cons_self ..)]
  | name =>
    simp only [Kind.fits, Bool.and_eq_true] at h
    exact h.1

/-- No lexeme of the one kind starts like one of the other. -/
def Kind.Differs (k k' : Kind) : Prop := ∀ c, k.opens c = true → k'.opens c = false

theorem scan_of_differs {source : Source} {k k' : Kind} {pos mid : Nat} {t : Token}
    (hk : k.Differs k') (h : scan source k pos = some (mid, t)) : scan source k' pos = none := by
  obtain ⟨n, hn, -⟩ := Option.map_eq_some_iff.mp h
  obtain ⟨l, rest, hl, -, hcuts⟩ := Kind.munch_eq_some_iff.mp hn
  obtain ⟨c, cs, rfl, hc⟩ := opens_of_fits hcuts.1
  cases hmunch : k'.munch (source.chars.toList.drop (skip source pos)) with
  | none => simp [scan, hmunch]
  | some n' =>
    obtain ⟨l', rest', hl', -, hcuts'⟩ := Kind.munch_eq_some_iff.mp hmunch
    obtain ⟨c', cs', rfl, hc'⟩ := opens_of_fits hcuts'.1
    rw [hl] at hl'
    cases (List.cons.inj hl').1
    rw [hk c hc] at hc'
    cases hc'

/-- A word starts with one character only, so what is tested of it is tested of any that it can start
with. -/
theorem test_of_opens {w : Word} {c : Char} {test : Char → Bool}
    (h : w.text.toList.head?.all test = true) (hc : (Kind.word w).opens c = true) : test c = true := by
  have hhead : w.text.toList.head? = some c := of_decide_eq_true hc
  rwa [hhead] at h

theorem word_differs {w : Word} {k : Kind} (h : w.text.toList.head?.all (fun c => !k.opens c) = true) :
    (Kind.word w).Differs k :=
  fun _ hc => Bool.not_eq_true' _ ▸ test_of_opens h hc

theorem name_differs_star : Kind.name.Differs (.word .star) := by
  intro c hc
  simp [Kind.opens] at hc
  rcases hc with rfl | rfl <;> decide

theorem number_differs_star : Kind.number.Differs (.word .star) := by
  intro c hc
  simp [Kind.opens, Word.text]
  rintro rfl
  revert hc
  decide

theorem number_differs_name : Kind.number.Differs .name := by
  intro c hc
  simp [Kind.opens]
  constructor <;> (rintro rfl; revert hc; decide)

theorem operand_differs_star {α : Type} (v : Operand α) : v.piece.1.Differs (.word .star) := by
  cases v with
  | name _ => exact name_differs_star
  | number _ => exact number_differs_star

/-! ### Reading instructions -/

section Readers
variable (source : Source)

/-- A type: its name, and a star if there is one. -/
def readType (pos : Nat) : Option (Nat × Ty Token) := do
  let (mid, name) ← scan source .type pos
  match scan source (.word .star) mid with
  | some (stop, star) => return (stop, ⟨name, some star⟩)
  | none => return (mid, ⟨name, none⟩)

/-- A name, or else a number. -/
def readOperand (pos : Nat) : Option (Nat × Operand Token) :=
  ((scan source .name pos).map fun (stop, t) => (stop, .name t)).or
    ((scan source .number pos).map fun (stop, t) => (stop, .number t))

def readAlloca (pos : Nat) : Option (Nat × Instr Token) := do
  let (pos, result) ← scan source .name pos
  let (pos, equal) ← scan source (.word .equal) pos
  let (pos, keyword) ← scan source (.word .alloca) pos
  let (pos, type) ← readType source pos
  let (pos, comma) ← scan source (.word .comma) pos
  let (pos, align) ← scan source (.word .align) pos
  let (pos, alignment) ← scan source .digits pos
  return (pos, .alloca result equal keyword type comma align alignment)

def readLoad (pos : Nat) : Option (Nat × Instr Token) := do
  let (pos, result) ← scan source .name pos
  let (pos, equal) ← scan source (.word .equal) pos
  let (pos, keyword) ← scan source (.word .load) pos
  let (pos, type) ← readType source pos
  let (pos, pointer) ← scan source .name pos
  let (pos, comma) ← scan source (.word .comma) pos
  let (pos, align) ← scan source (.word .align) pos
  let (pos, alignment) ← scan source .digits pos
  return (pos, .load result equal keyword type pointer comma align alignment)

def readStore (pos : Nat) : Option (Nat × Instr Token) := do
  let (pos, keyword) ← scan source (.word .store) pos
  let (pos, type) ← readType source pos
  let (pos, value) ← readOperand source pos
  let (pos, comma) ← scan source (.word .comma) pos
  let (pos, pointerType) ← readType source pos
  let (pos, pointer) ← scan source .name pos
  let (pos, comma') ← scan source (.word .comma) pos
  let (pos, align) ← scan source (.word .align) pos
  let (pos, alignment) ← scan source .digits pos
  return (pos, .store keyword type value comma pointerType pointer comma' align alignment)

/-- The first form that can be read. -/
def readInstr (pos : Nat) : Option (Nat × Instr Token) :=
  (readAlloca source pos).or ((readLoad source pos).or (readStore source pos))

end Readers

section
variable {source : Source} {pos mid stop : Nat}

theorem chain_of_readType {t : Ty Token} (h : readType source pos = some (stop, t)) :
    Chain source pos t.pieces stop := by
  simp only [readType, Option.bind_eq_bind, Option.bind_eq_some_iff, Prod.exists] at h
  obtain ⟨mid, name, hname, h⟩ := h
  cases hstar : scan source (.word .star) mid with
  | none =>
    rw [hstar] at h
    cases h
    exact ⟨_, hname, rfl⟩
  | some found =>
    rw [hstar] at h
    cases h
    exact ⟨_, hname, _, hstar, rfl⟩

theorem readType_of_chain {t : Ty Token} (h : Chain source pos t.pieces stop)
    (hnext : scan source (.word .star) stop = none) : readType source pos = some (stop, t) := by
  rcases t with ⟨name, _ | star⟩
  · obtain ⟨_, hname, rfl⟩ := h
    simp [readType, hname, hnext]
  · obtain ⟨_, hname, _, hstar, rfl⟩ := h
    simp [readType, hname, hstar]

theorem chain_of_readOperand {v : Operand Token} (h : readOperand source pos = some (stop, v)) :
    Chain source pos [v.piece] stop := by
  unfold readOperand at h
  rcases Option.or_eq_some_iff.mp h with h | ⟨-, h⟩
  · obtain ⟨found, hname, h⟩ := Option.map_eq_some_iff.mp h
    cases h
    exact ⟨_, hname, rfl⟩
  · obtain ⟨found, hnumber, h⟩ := Option.map_eq_some_iff.mp h
    cases h
    exact ⟨_, hnumber, rfl⟩

theorem readOperand_of_chain {v : Operand Token} (h : Chain source pos [v.piece] stop) :
    readOperand source pos = some (stop, v) := by
  obtain ⟨_, hscan, rfl⟩ := h
  cases v with
  | name t => simp [readOperand, show scan source .name pos = _ from hscan]
  | number t =>
    simp [readOperand, scan_of_differs number_differs_name hscan,
      show scan source .number pos = _ from hscan]

theorem chain_of_readAlloca {i : Instr Token} (h : readAlloca source pos = some (stop, i)) :
    Chain source pos i.pieces stop := by
  simp only [readAlloca, Option.bind_eq_bind, Option.bind_eq_some_iff, Prod.exists] at h
  obtain ⟨_, result, h₁, _, equal, h₂, _, keyword, h₃, _, type, h₄, _, comma, h₅, _, align, h₆, _,
    alignment, h₇, h⟩ := h
  cases h
  simp only [Instr.pieces, chain_append, Chain]
  exact ⟨_, ⟨_, ⟨_, h₁, _, h₂, _, h₃, rfl⟩, chain_of_readType h₄⟩, _, h₅, _, h₆, _, h₇, rfl⟩

theorem chain_of_readLoad {i : Instr Token} (h : readLoad source pos = some (stop, i)) :
    Chain source pos i.pieces stop := by
  simp only [readLoad, Option.bind_eq_bind, Option.bind_eq_some_iff, Prod.exists] at h
  obtain ⟨_, result, h₁, _, equal, h₂, _, keyword, h₃, _, type, h₄, _, pointer, h₅, _, comma, h₆, _,
    align, h₇, _, alignment, h₈, h⟩ := h
  cases h
  simp only [Instr.pieces, chain_append, Chain]
  exact ⟨_, ⟨_, ⟨_, h₁, _, h₂, _, h₃, rfl⟩, chain_of_readType h₄⟩, _, h₅, _, h₆, _, h₇, _, h₈, rfl⟩

theorem chain_of_readStore {i : Instr Token} (h : readStore source pos = some (stop, i)) :
    Chain source pos i.pieces stop := by
  simp only [readStore, Option.bind_eq_bind, Option.bind_eq_some_iff, Prod.exists] at h
  obtain ⟨_, keyword, h₁, _, type, h₂, _, value, h₃, _, comma, h₄, _, pointerType, h₅, _, pointer, h₆,
    _, comma', h₇, _, align, h₈, _, alignment, h₉, h⟩ := h
  cases h
  obtain ⟨_, hvalue, rfl⟩ := chain_of_readOperand h₃
  simp only [Instr.pieces, chain_append, Chain]
  exact ⟨_, ⟨_, ⟨_, ⟨_, ⟨_, h₁, rfl⟩, chain_of_readType h₂⟩, _, hvalue, _, h₄, rfl⟩,
    chain_of_readType h₅⟩, _, h₆, _, h₇, _, h₈, _, h₉, rfl⟩

/-- What is read has its lexemes in a row. -/
theorem chain_of_readInstr {i : Instr Token} (h : readInstr source pos = some (stop, i)) :
    Chain source pos i.pieces stop := by
  unfold readInstr at h
  rcases Option.or_eq_some_iff.mp h with h | ⟨-, h⟩
  · exact chain_of_readAlloca h
  · rcases Option.or_eq_some_iff.mp h with h | ⟨-, h⟩
    · exact chain_of_readLoad h
    · exact chain_of_readStore h

/-- An instruction whose lexemes stand in a row is read. -/
theorem readInstr_of_chain {i : Instr Token} (h : Chain source pos i.pieces stop) :
    readInstr source pos = some (stop, i) := by
  cases i with
  | alloca result equal keyword type comma align alignment =>
    simp only [Instr.pieces, chain_append, Chain] at h
    obtain ⟨_, ⟨_, ⟨_, h₁, _, h₂, _, h₃, rfl⟩, h₄⟩, _, h₅, _, h₆, _, h₇, rfl⟩ := h
    have htype := readType_of_chain h₄ (scan_of_differs (word_differs (by decide)) h₅)
    simp [readInstr, readAlloca, h₁, h₂, h₃, htype, h₅, h₆, h₇]
  | load result equal keyword type pointer comma align alignment =>
    simp only [Instr.pieces, chain_append, Chain] at h
    obtain ⟨_, ⟨_, ⟨_, h₁, _, h₂, _, h₃, rfl⟩, h₄⟩, _, h₅, _, h₆, _, h₇, _, h₈, rfl⟩ := h
    have htype := readType_of_chain h₄ (scan_of_differs name_differs_star h₅)
    have hother : scan source (.word .alloca) _ = none :=
      scan_of_differs (word_differs (by decide)) h₃
    simp [readInstr, readAlloca, readLoad, h₁, h₂, h₃, hother, htype, h₅, h₆, h₇, h₈]
  | store keyword type value comma pointerType pointer comma' align alignment =>
    simp only [Instr.pieces, chain_append, Chain] at h
    obtain ⟨_, ⟨_, ⟨_, ⟨_, ⟨_, h₁, rfl⟩, h₂⟩, _, h₃, _, h₄, rfl⟩, h₅⟩, _, h₆, _, h₇, _, h₈, _, h₉,
      rfl⟩ := h
    have htype := readType_of_chain h₂ (scan_of_differs (operand_differs_star value) h₃)
    have hvalue := readOperand_of_chain (v := value) ⟨_, h₃, rfl⟩
    have hpointer := readType_of_chain h₅ (scan_of_differs name_differs_star h₆)
    have hother : scan source .name _ = none := scan_of_differs (word_differs (by decide)) h₁
    simp [readInstr, readAlloca, readLoad, readStore, h₁, hother, htype, hvalue, h₄, hpointer, h₆,
      h₇, h₈, h₉]

theorem readInstr_onward {i : Instr Token} (hpos : pos ≤ source.length)
    (h : readInstr source pos = some (stop, i)) : pos < stop ∧ stop ≤ source.length := by
  have hchain := chain_onward hpos (chain_of_readInstr h)
  have hne : 0 < i.pieces.length := by cases i <;> simp [Instr.pieces]
  omega

theorem readInstr_end : readInstr source source.length = none := by
  cases h : readInstr source source.length with
  | none => rfl
  | some found =>
    have := readInstr_onward (Nat.le_refl _) h
    omega

/-- A row of lexemes up to the end belongs to one list of instructions only. -/
theorem chain_unique : ∀ {is js : List (Instr Token)} {pos : Nat},
    Chain source pos (is.flatMap Instr.pieces) source.length →
    Chain source pos (js.flatMap Instr.pieces) source.length → is = js
  | [], [], _, _, _ => rfl
  | [], j :: js, _, h, h' => by
    obtain ⟨mid, hj, -⟩ := chain_append.mp h'
    have hread := readInstr_of_chain hj
    cases h
    rw [readInstr_end] at hread
    cases hread
  | i :: is, [], _, h, h' => by
    obtain ⟨mid, hi, -⟩ := chain_append.mp h
    have hread := readInstr_of_chain hi
    cases h'
    rw [readInstr_end] at hread
    cases hread
  | i :: is, j :: js, _, h, h' => by
    obtain ⟨mid, hi, his⟩ := chain_append.mp h
    obtain ⟨mid', hj, hjs⟩ := chain_append.mp h'
    have hsame := (readInstr_of_chain hi).symm.trans (readInstr_of_chain hj)
    cases hsame
    rw [chain_unique his hjs]

end

/-! ### Gaps that must hold something -/

/-- May a lexeme of the second kind follow one of the first without a gap? -/
def Kind.touches : Kind → Kind → Bool
  | .word _, _ => true
  | .name, .word w => w = .equal || w = .comma
  | .digits, .word _ | .type, .word _ | .number, .word _ => true
  | .digits, .name | .type, .name | .number, .name => true
  | _, _ => false

theorem isDigit_of_opens {k : Kind} {c : Char} (hk : Kind.digits.touches k = true)
    (hc : k.opens c = true) : c.isDigit = false := by
  cases k with
  | word w =>
    have hword : w.text.toList.head?.all (fun c => !c.isDigit) = true := by cases w <;> decide
    simpa using test_of_opens hword hc
  | name =>
    simp [Kind.opens] at hc
    rcases hc with rfl | rfl <;> decide
  | digits => cases hk
  | type => cases hk
  | number => cases hk

/-- A lexeme that may follow without a gap does not go on with the one before it. -/
theorem not_goesOn_of_touches {k k' : Kind} {l : String} (h : k.touches k' = true)
    (hl : k'.fits l.toList = true) : l.toList.head?.any k.goesOn = false := by
  obtain ⟨c, cs, hcs, hc⟩ := opens_of_fits hl
  simp only [hcs, List.head?_cons, Option.any_some]
  cases k with
  | word w => rfl
  | name =>
    cases k' with
    | word w =>
      have hword : w.text.toList.head?.all (fun c => !isNameChar c) = true := by
        have hw : w = .equal ∨ w = .comma := by simpa [Kind.touches] using h
        rcases hw with rfl | rfl <;> decide
      exact Bool.not_eq_true' _ ▸ test_of_opens hword hc
    | _ => cases h
  | digits => exact isDigit_of_opens h hc
  | type => exact isDigit_of_opens (by cases k' <;> exact h) hc
  | number => exact isDigit_of_opens (by cases k' <;> exact h) hc

/-- Lexemes that may follow one another need no gaps. -/
theorem crowds_loose : ∀ {ps qs : List (Kind × String)},
    (∀ p ∈ ps ++ qs, p.1.fits p.2.toList = true) →
    List.IsChain (fun k k' => k.touches k' = true) (ps.map (·.1) ++ (qs.head?.map (·.1)).toList) →
    crowds (ps ++ qs) = ps.map (fun _ => false) ++ crowds qs
  | [], qs, _, _ => rfl
  | (k, l) :: ps, qs, hfits, hchain => by
    obtain ⟨-, hfits⟩ := List.forall_mem_cons.mp hfits
    obtain ⟨hnext, hchain⟩ := List.isChain_cons.mp hchain
    have hhead : (ps.map (·.1) ++ (qs.head?.map (·.1)).toList).head? =
        (ps ++ qs).head?.map (·.1) := by
      cases ps with
      | nil => cases qs <;> rfl
      | cons p ps => rfl
    have hflag : ((ps ++ qs).head?.any fun p => p.2.toList.head?.any k.goesOn) = false := by
      cases hp : (ps ++ qs).head? with
      | none => rfl
      | some p =>
        have htouches := hnext p.1 (hhead.trans (congrArg _ hp))
        exact not_goesOn_of_touches htouches (hfits p (List.mem_of_mem_head? hp))
    rw [List.cons_append, crowds, hflag, crowds_loose hfits hchain]
    rfl

/-- The lexeme that an instruction starts with. -/
theorem head_pieces {α : Type} (d : List (Instr α)) :
    (d.flatMap Instr.pieces).head?.map (·.1) = none ∨
      (d.flatMap Instr.pieces).head?.map (·.1) = some .name ∨
      (d.flatMap Instr.pieces).head?.map (·.1) = some (.word .store) := by
  match d with
  | [] => exact .inl rfl
  | .alloca .. :: _ => exact .inr (.inl rfl)
  | .load .. :: _ => exact .inr (.inl rfl)
  | .store .. :: _ => exact .inr (.inr rfl)

theorem Instr.apart_of_not_crowded {i : Instr String} (h : i.crowded = false) :
    i.apart = i.pieces.map fun _ => false := by
  simp [apart, lexemes, h, List.mapIdx_eq_zipIdx_map]

theorem Instr.apart_eq {i : Instr String} {p q : Kind × String} {ps : List (Kind × String)}
    (h : i.pieces = p :: q :: ps) : i.apart = false :: i.crowded :: ps.map fun _ => false := by
  rw [apart, lexemes, h, List.map_cons, List.map_cons, List.mapIdx_cons, List.mapIdx_cons]
  simp [List.mapIdx_eq_zipIdx_map]

/-- The gap after the second lexeme depends on the value that follows. -/
theorem crowds_store {keyword name value : String} {ps : List (Kind × String)} :
    crowds ((.word .store, keyword) :: (.type, name) :: (.number, value) :: ps) =
      false :: value.toList.head?.any Char.isDigit :: crowds ((.number, value) :: ps) := by
  have hword : name.toList.head?.any (Kind.word .store).goesOn = false := by
    cases name.toList.head? <;> rfl
  rw [crowds, crowds]
  simp only [List.head?_cons, Option.any_some, hword]
  rfl

/-- Only after a store's value type may a gap have to hold something. -/
theorem crowds_instr {i : Instr String} {d : List (Instr String)} (hi : i.Fits)
    (hd : ∀ p ∈ d.flatMap Instr.pieces, p.1.fits p.2.toList = true) :
    crowds (i.pieces ++ d.flatMap Instr.pieces) = i.apart ++ crowds (d.flatMap Instr.pieces) := by
  have hfits : ∀ p ∈ i.pieces ++ d.flatMap Instr.pieces, p.1.fits p.2.toList = true :=
    List.forall_mem_append.mpr ⟨hi, hd⟩
  have hloose : i.crowded = false → List.IsChain (fun k k' => k.touches k' = true)
      (i.pieces.map (·.1) ++ ((d.flatMap Instr.pieces).head?.map (·.1)).toList) →
      crowds (i.pieces ++ d.flatMap Instr.pieces) =
        i.apart ++ crowds (d.flatMap Instr.pieces) := by
    intro h hchain
    rw [Instr.apart_of_not_crowded h, crowds_loose hfits hchain]
  have hnext := head_pieces d
  cases i with
  | alloca result equal keyword type comma align alignment =>
    refine hloose rfl ?_
    rcases type with ⟨_, _ | _⟩ <;> rcases hnext with h | h | h <;>
      simp [Instr.pieces, Ty.pieces, h, Kind.touches]
  | load result equal keyword type pointer comma align alignment =>
    refine hloose rfl ?_
    rcases type with ⟨_, _ | _⟩ <;> rcases hnext with h | h | h <;>
      simp [Instr.pieces, Ty.pieces, h, Kind.touches]
  | store keyword type value comma pointerType pointer comma' align alignment =>
    rcases type with ⟨name, _ | star⟩
    · cases value with
      | name value =>
        refine hloose rfl ?_
        rcases pointerType with ⟨_, _ | _⟩ <;> rcases hnext with h | h | h <;>
          simp [Instr.pieces, Ty.pieces, Operand.piece, h, Kind.touches]
      | number value =>
        rw [Instr.apart_eq rfl]
        refine crowds_store.trans (congrArg (fun bs => false :: _ :: bs) ?_)
        -- from the value on the lexemes are loose again
        refine crowds_loose (fun p hp => hfits p (.tail _ (.tail _ hp))) ?_
        rcases pointerType with ⟨_, _ | _⟩ <;> rcases hnext with h | h | h <;>
          simp [Ty.pieces, Operand.piece, h, Kind.touches]
    · refine hloose rfl ?_
      rcases pointerType with ⟨_, _ | _⟩ <;> cases value <;> rcases hnext with h | h | h <;>
        simp [Instr.pieces, Ty.pieces, Operand.piece, h, Kind.touches]

theorem fits_pieces {d : List (Instr String)} (h : ∀ i ∈ d, i.Fits) :
    ∀ p ∈ d.flatMap Instr.pieces, p.1.fits p.2.toList = true := by
  intro p hp
  obtain ⟨i, hi, hp⟩ := List.mem_flatMap.mp hp
  exact h i hi p hp

theorem crowds_pieces : ∀ {d : List (Instr String)}, (∀ i ∈ d, i.Fits) →
    crowds (d.flatMap Instr.pieces) = d.flatMap Instr.apart
  | [], _ => rfl
  | i :: d, h => by
    obtain ⟨hi, hd⟩ := List.forall_mem_cons.mp h
    rw [List.flatMap_cons, crowds_instr hi (fits_pieces hd), crowds_pieces hd, List.flatMap_cons]

/-! ### Whole texts -/

theorem map_snd_pieces {α : Type} (d : List (Instr α)) :
    (d.flatMap Instr.pieces).map (·.2) = d.flatMap Instr.lexemes := by
  rw [List.map_flatMap]
  rfl

theorem written_pieces (is : List (Instr Token)) :
    written (is.flatMap Instr.pieces) = (is.map (Instr.map Token.text)).flatMap Instr.pieces := by
  simp [written, List.map_flatMap, List.flatMap_map, Instr.pieces_map]

theorem laid_pieces_iff {d : List (Instr String)} {gaps : List String} :
    Laid (d.flatMap Instr.pieces) gaps ↔
      (∀ i ∈ d, i.Fits) ∧ List.Forall₂ GapFor (d.flatMap Instr.apart) gaps := by
  constructor
  · rintro ⟨hfits, hspread⟩
    have hd : ∀ i ∈ d, i.Fits := fun i hi p hp => hfits p (List.mem_flatMap.mpr ⟨i, hi, hp⟩)
    exact ⟨hd, crowds_pieces hd ▸ hspread⟩
  · rintro ⟨hd, hspread⟩
    exact ⟨fits_pieces hd, crowds_pieces hd ▸ hspread⟩

/-- White space before the first lexeme is skipped. -/
theorem chain_lead {text lead rest : String} (h : text = lead ++ rest) (hlead : isBlank lead = true)
    (hrest : Tight rest) {ps : List (Kind × Token)} (hps : ps ≠ []) {stop : Nat} :
    Chain (.ofString text) 0 ps stop ↔ Chain (.ofString text) lead.length ps stop := by
  obtain ⟨⟨k, t⟩, ps, rfl⟩ := List.exists_cons_of_ne_nil hps
  have hstart : skip (.ofString text) 0 = lead.length := by
    have : skip (.ofString text) ("" : String).length = ("" ++ lead).length :=
      skip_append (by simpa using h) hlead hrest
    simpa using this
  simp only [Chain, scan, hstart, skip_tight h hrest]

theorem pieces_ne_nil {α : Type} {d : List (Instr α)} (h : d ≠ []) :
    d.flatMap Instr.pieces ≠ [] := by
  match d with
  | .alloca .. :: _ => simp [Instr.pieces]
  | .load .. :: _ => simp [Instr.pieces]
  | .store .. :: _ => simp [Instr.pieces]

/-- The lexemes of instructions can be scanned in a row, up to the end, exactly in the texts that the
instructions are printed as. -/
theorem chain_iff_prints {text : String} {is : List (Instr Token)} (hne : is ≠ []) :
    Chain (.ofString text) 0 (is.flatMap Instr.pieces) text.length ↔
      ∃ lead gaps, Prints (is.map (Instr.map Token.text)) lead gaps text ∧
        is.flatMap Instr.lexemes =
          tokensFrom lead ((is.map (Instr.map Token.text)).flatMap Instr.lexemes) gaps := by
  have hpieces := pieces_ne_nil hne
  constructor
  · intro h
    obtain ⟨lead, rest, htext, hlead, hrest⟩ := exists_tight text
    obtain ⟨gaps, hlaid, hwritten, htokens⟩ :=
      (chain_iff htext hrest).mp ((chain_lead htext hlead hrest hpieces).mp h)
    rw [written_pieces] at hlaid hwritten htokens
    rw [map_snd_pieces] at hwritten htokens
    rw [map_snd_pieces] at htokens
    obtain ⟨hfits, hspread⟩ := laid_pieces_iff.mp hlaid
    exact ⟨lead, gaps, ⟨by simpa using hne, hfits, hlead, hspread, hwritten ▸ htext⟩, htokens⟩
  · rintro ⟨lead, gaps, hprints, htokens⟩
    have hlaid := laid_pieces_iff.mpr ⟨hprints.fits, hprints.spread⟩
    have hrest := hlaid.tight
    rw [map_snd_pieces] at hrest
    refine (chain_lead hprints.written hprints.blank hrest hpieces).mpr
      ((chain_iff hprints.written hrest).mpr ⟨gaps, ?_⟩)
    rw [written_pieces, map_snd_pieces, map_snd_pieces]
    exact ⟨hlaid, rfl, htokens⟩

end PegScribe.Ir
