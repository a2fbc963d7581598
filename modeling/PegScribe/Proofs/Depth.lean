import Mathlib.Data.List.Forall2
import PegScribe.Proofs.Places

/-!
Depth: a limit on nesting only ever takes an answer away.

`Extends x y` says that `y` answers as `x` does wherever `x` keeps within its limit. Trying an
expression with more depth, and repeating it with more rounds, extends what was there before, so two
limits that both give an answer give the same one.
-/
namespace PegScribe.Packrat
variable {α β : Type}

/-! ### Computations of the engine -/

theorem bind_run (x : Engine α) (f : α → Engine β) (r : Run) :
    (x >>= f) r = match x r with
      | .ok (a, r') => f a r'
      | .error e => .error e := by
  show (x r >>= fun p => f p.1 p.2) = _
  cases x r <;> rfl

theorem bind_of_ok {x : Engine α} {f : α → Engine β} {r r' : Run} {a : α}
    (h : x r = .ok (a, r')) : (x >>= f) r = f a r' := by
  rw [bind_run, h]

theorem bind_eq_ok {x : Engine α} {f : α → Engine β} {r r' : Run} {b : β} :
    (x >>= f) r = .ok (b, r') ↔ ∃ a r₁, x r = .ok (a, r₁) ∧ f a r₁ = .ok (b, r') := by
  rw [bind_run]
  cases x r with
  | error e => simp
  | ok p => exact ⟨fun h => ⟨p.1, p.2, rfl, h⟩, by rintro ⟨a, r₁, ha, h⟩; cases ha; exact h⟩

theorem pure_eq_ok {a b : α} {r r' : Run} :
    (pure a : Engine α) r = .ok (b, r') ↔ a = b ∧ r = r' := by
  show (Except.ok (a, r) : Except Fault (α × Run)) = _ ↔ _
  simp

/-! ### The order by limits -/

/-- Where `x` keeps within its limit, `y` answers as `x` does. -/
def Extends (x y : Engine α) : Prop := ∀ r, x r = .error .tooDeep ∨ y r = x r

theorem Extends.refl (x : Engine α) : Extends x x := fun _ => .inr rfl

theorem Extends.trans {x y z : Engine α} (hxy : Extends x y) (hyz : Extends y z) :
    Extends x z := by
  intro r
  rcases hxy r with h | h
  · exact .inl h
  · rcases hyz r with h' | h'
    · exact .inl (h ▸ h')
    · exact .inr (h'.trans h)

theorem Extends.of_ok {x y : Engine α} (h : Extends x y) {r r' : Run} {a : α}
    (hx : x r = .ok (a, r')) : y r = .ok (a, r') := by
  rcases h r with h | h
  · rw [hx] at h; cases h
  · rw [h, hx]

theorem Extends.bind {x y : Engine α} {f f' : α → Engine β} (hxy : Extends x y)
    (hf : ∀ a, Extends (f a) (f' a)) : Extends (x >>= f) (y >>= f') := by
  intro r
  rw [bind_run, bind_run]
  rcases hxy r with h | h
  · rw [h]; exact .inl rfl
  · rw [h]
    cases hx : x r with
    | error e => exact .inr rfl
    | ok p => exact hf p.1 p.2

theorem Extends.throw_tooDeep (y : Engine α) : Extends (throw .tooDeep) y := fun _ => .inl rfl

/-! ### Operators -/

section Operators
variable {attempt attempt' : Expr → Int → Engine Match}

/-- Trying a row is extended by trying a row whose expressions extend those at their places. -/
theorem inTurn_extends_row : ∀ {es es' : List Expr},
    List.Forall₂ (fun e e' => ∀ pos, Extends (attempt e pos) (attempt' e' pos)) es es' →
    ∀ pos, Extends (inTurn attempt es pos) (inTurn attempt' es' pos)
  | _, _, .nil, pos => Extends.refl _
  | _, _, .cons h hrest, pos => by
    refine (h pos).bind fun m => ?_
    cases m with
    | none => exact Extends.refl _
    | some found => exact (inTurn_extends_row hrest found.1).bind fun _ => Extends.refl _

theorem inTurn_extends (h : ∀ e pos, Extends (attempt e pos) (attempt' e pos)) (es : List Expr)
    (pos : Int) : Extends (inTurn attempt es pos) (inTurn attempt' es pos) :=
  inTurn_extends_row (List.forall₂_same.mpr fun e _ => h e) pos

theorem firstOf_extends_row : ∀ {es es' : List Expr},
    List.Forall₂ (fun e e' => ∀ pos, Extends (attempt e pos) (attempt' e' pos)) es es' →
    ∀ pos, Extends (firstOf attempt es pos) (firstOf attempt' es' pos)
  | _, _, .nil, pos => Extends.refl _
  | _, _, .cons h hrest, pos => by
    refine (h pos).bind fun m => ?_
    cases m with
    | none => exact firstOf_extends_row hrest pos
    | some found => exact Extends.refl _

theorem firstOf_extends (h : ∀ e pos, Extends (attempt e pos) (attempt' e pos)) (es : List Expr)
    (pos : Int) : Extends (firstOf attempt es pos) (firstOf attempt' es pos) :=
  firstOf_extends_row (List.forall₂_same.mpr fun e _ => h e) pos

/-- More rounds, and rounds with more depth, keep an answer. -/
theorem many_extends {once once' : Int → Engine Match}
    (h : ∀ pos, Extends (once pos) (once' pos)) :
    ∀ {budget budget'}, budget ≤ budget' → ∀ pos,
      Extends (many once budget pos) (many once' budget' pos)
  | 0, _, _, pos => Extends.throw_tooDeep _
  | budget + 1, 0, hle, pos => by omega
  | budget + 1, budget' + 1, hle, pos => by
    refine (h pos).bind fun m => ?_
    cases m with
    | none => exact Extends.refl _
    | some found =>
      dsimp only
      split
      · exact Extends.refl _
      · exact (many_extends h (by omega) found.1).bind fun _ => Extends.refl _

theorem apply_extends (g : Grammar) (h : ∀ e pos, Extends (attempt e pos) (attempt' e pos))
    (key : RuleKey) (pos : Int) : Extends (apply g attempt key pos) (apply g attempt' key pos) := by
  refine (Extends.refl _).bind fun r => ?_
  split
  · exact Extends.refl _
  · exact Extends.refl _
  · refine (Extends.refl _).bind fun _ => (Extends.refl _).bind fun body => ?_
    exact (h body pos).bind fun _ => Extends.refl _

end Operators

/-! ### Expressions and whole runs -/

variable [PatternLibrary]

/-- A repetition is extended by a repetition of what extends its body. -/
theorem rep_extends {g : Grammar} {text : Array Char} {d d' : Nat} {body body' : Expr}
    (h : ∀ pos, Extends (eval g text d body pos) (eval g text d' body' pos)) (how : Repetition)
    (pos : Int) :
    Extends (eval g text (d + 1) (.rep how body) pos) (eval g text (d' + 1) (.rep how body') pos) := by
  cases how with
  | optional => exact (h pos).bind fun _ => Extends.refl _
  | zeroOrMore => exact (many_extends h (Nat.le_refl _) pos).bind fun _ => Extends.refl _
  | oneOrMore =>
    refine (h pos).bind fun m => ?_
    cases m with
    | none => exact Extends.refl _
    | some found => exact (many_extends h (Nat.le_refl _) found.1).bind fun _ => Extends.refl _
  | unknown mark => exact Extends.refl _

theorem eval_succ_extends (g : Grammar) (text : Array Char) : ∀ d e pos,
    Extends (eval g text d e pos) (eval g text (d + 1) e pos)
  | 0, e, pos => Extends.throw_tooDeep _
  | d + 1, e, pos => by
    have ih := eval_succ_extends g text d
    cases e with
    | literal t => exact Extends.refl _
    | pattern source => exact Extends.refl _
    | call key => exact (apply_extends g ih key pos).bind fun _ => Extends.refl _
    | late callee => exact Extends.refl _
    | rep how body => exact rep_extends (ih body) how pos
    | seq items => exact inTurn_extends ih items pos
    | choice alts => exact firstOf_extends ih alts pos
    | misfit shown type => exact Extends.refl _
    | foreign shown => exact Extends.refl _

theorem eval_extends (g : Grammar) (text : Array Char) {d d' : Nat} (hle : d ≤ d') (e : Expr)
    (pos : Int) : Extends (eval g text d e pos) (eval g text d' e pos) := by
  induction hle with
  | refl => exact Extends.refl _
  | step _ ih => exact ih.trans (eval_succ_extends g text _ e pos)

/-- A run that keeps within its depth comes to the same with more depth. -/
theorem parse_mono {g : Grammar} {patterns : PatternTable} {key : RuleKey} {text : Array Char}
    {pos : Int} {d d' : Nat} (hle : d ≤ d') :
    parse g patterns d key text pos = .error .tooDeep ∨
      parse g patterns d' key text pos = parse g patterns d key text pos := by
  have h := apply_extends g (eval_extends g text hle) key pos { patterns }
  unfold parse StateT.run
  rcases h with h | h
  · rw [h]; exact .inl rfl
  · rw [h]; exact .inr rfl

end PegScribe.Packrat
