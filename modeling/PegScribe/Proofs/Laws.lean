import PegScribe.Proofs.Depth

/-!
Laws: expressions that can stand in for one another.

Two expressions agree if the engine answers the same for both and leaves the same behind, in every
grammar, text, place and run, but for the depth that they need. Agreement is kept by every operator,
and grouping the parts of a sequence or of a choice changes nothing.
-/
namespace PegScribe.Packrat

/-! ### In turn and in order of preference -/

section Parts
variable {attempt : Expr → Int → Engine Match}

/-- Goes on after a match, and puts what follows behind it. -/
def andThen (next : Int → Engine Match) : Match → Engine Match
  | none => return none
  | some (mid, trees) => do
    match ← next mid with
    | none => return none
    | some (stop, more) => return some (stop, trees ++ more)

/-- Goes on after a failure. -/
def orElse (next : Engine Match) : Match → Engine Match
  | some found => return some found
  | none => next

theorem inTurn_cons (e : Expr) (rest : List Expr) (pos : Int) :
    inTurn attempt (e :: rest) pos = attempt e pos >>= andThen (inTurn attempt rest) := rfl

theorem firstOf_cons (e : Expr) (rest : List Expr) (pos : Int) :
    firstOf attempt (e :: rest) pos = attempt e pos >>= orElse (firstOf attempt rest pos) := rfl

/-- Going on from nothing matched yet is just going on. -/
theorem andThen_start (next : Int → Engine Match) (pos : Int) :
    andThen next (some (pos, [])) = next pos := by
  refine Eq.trans ?_ (bind_pure (next pos))
  refine bind_congr fun m => ?_
  cases m <;> rfl

/-- Going on twice, from left to right or from right to left. -/
theorem andThen_assoc (next next' : Int → Engine Match) (m : Match) :
    (andThen next m >>= andThen next') = andThen (fun pos => next pos >>= andThen next') m := by
  cases m with
  | none => rfl
  | some found =>
    simp only [andThen, bind_assoc]
    refine bind_congr fun m => ?_
    cases m with
    | none => rfl
    | some found' =>
      simp only [pure_bind, bind_assoc]
      refine bind_congr fun m => ?_
      cases m with
      | none => rfl
      | some found'' => simp only [pure_bind, List.append_assoc]

theorem inTurn_append (es fs : List Expr) (pos : Int) :
    inTurn attempt (es ++ fs) pos = inTurn attempt es pos >>= andThen (inTurn attempt fs) := by
  induction es generalizing pos with
  | nil => exact (andThen_start _ pos).symm
  | cons e rest ih =>
    rw [List.cons_append, inTurn_cons, inTurn_cons, bind_assoc]
    refine bind_congr fun m => ?_
    rw [andThen_assoc, funext ih]

theorem firstOf_append (es fs : List Expr) (pos : Int) :
    firstOf attempt (es ++ fs) pos = firstOf attempt es pos >>= orElse (firstOf attempt fs pos) := by
  induction es generalizing pos with
  | nil => rfl
  | cons e rest ih =>
    rw [List.cons_append, firstOf_cons, firstOf_cons, bind_assoc]
    refine bind_congr fun m => ?_
    cases m with
    | none => exact ih pos
    | some found => rfl

theorem inTurn_one (e : Expr) (pos : Int) : inTurn attempt [e] pos = attempt e pos := by
  rw [inTurn_cons]
  refine Eq.trans ?_ (bind_pure (attempt e pos))
  refine bind_congr fun m => ?_
  cases m with
  | none => rfl
  | some found =>
    show (pure (some (found.1, found.2 ++ [])) : Engine Match) = pure (some found)
    rw [List.append_nil]

theorem firstOf_one (e : Expr) (pos : Int) : firstOf attempt [e] pos = attempt e pos := by
  rw [firstOf_cons]
  refine Eq.trans ?_ (bind_pure (attempt e pos))
  refine bind_congr fun m => ?_
  cases m <;> rfl

end Parts

/-! ### Agreement -/

variable [PatternLibrary]

/-- With some more depth the second expression answers as the first does. -/
def Refines (e e' : Expr) : Prop :=
  ∃ extra, ∀ g text d pos, Extends (eval g text d e pos) (eval g text (d + extra) e' pos)

/-- The two expressions answer alike. -/
structure Agree (e e' : Expr) : Prop where
  there : Refines e e'
  back : Refines e' e

section Agreement
variable {e e' e'' : Expr}

theorem Refines.refl (e : Expr) : Refines e e := ⟨0, fun _ _ _ _ => Extends.refl _⟩

theorem Refines.trans (h : Refines e e') (h' : Refines e' e'') : Refines e e'' := by
  obtain ⟨k, hk⟩ := h
  obtain ⟨k', hk'⟩ := h'
  refine ⟨k + k', fun g text d pos => (hk g text d pos).trans ?_⟩
  rw [← Nat.add_assoc]
  exact hk' g text (d + k) pos

/-- No depth answers nothing, so one step of each is all there is to compare. -/
theorem Refines.of_succ {k : Nat} (h : ∀ g text d pos,
    Extends (eval g text (d + 1) e pos) (eval g text (d + k + 1) e' pos)) : Refines e e' := by
  refine ⟨k, fun g text d pos => ?_⟩
  cases d with
  | zero => exact Extends.throw_tooDeep _
  | succ d =>
    rw [Nat.add_right_comm]
    exact h g text d pos

theorem Agree.refl (e : Expr) : Agree e e := ⟨.refl e, .refl e⟩

theorem Agree.symm (h : Agree e e') : Agree e' e := ⟨h.back, h.there⟩

theorem Agree.trans (h : Agree e e') (h' : Agree e' e'') : Agree e e'' :=
  ⟨h.there.trans h'.there, h'.back.trans h.back⟩

/-- What is worked out by the same steps agrees, at whatever depth the steps are taken. -/
theorem Agree.of_same_steps {k : Nat} (h : ∀ g text d pos,
    eval g text (d + k + 1) e' pos = eval g text (d + 1) e pos) : Agree e e' where
  there := .of_succ fun g text d pos => by rw [h]; exact Extends.refl _
  back := ⟨1, fun g text d pos => by rw [← h]; exact eval_extends g text (by omega) e' pos⟩

end Agreement

/-! ### Operators keep agreement -/

theorem Refines.rep {e e' : Expr} (h : Refines e e') (how : Repetition) :
    Refines (.rep how e) (.rep how e') := by
  obtain ⟨k, hk⟩ := h
  exact .of_succ fun g text d pos => rep_extends (hk g text d) how pos

/-- One amount of depth is enough for all the parts. -/
theorem refines_row : ∀ {es es' : List Expr}, List.Forall₂ Refines es es' →
    ∃ k, ∀ g text d, List.Forall₂
      (fun e e' => ∀ pos, Extends (eval g text d e pos) (eval g text (d + k) e' pos)) es es'
  | _, _, .nil => ⟨0, fun _ _ _ => .nil⟩
  | _, _, .cons ⟨k, hk⟩ hrest => by
    obtain ⟨k', hk'⟩ := refines_row hrest
    refine ⟨max k k', fun g text d => .cons (fun pos => ?_) ((hk' g text d).imp fun _ _ h pos => ?_)⟩
    · exact (hk g text d pos).trans (eval_extends g text (by omega) _ pos)
    · exact (h pos).trans (eval_extends g text (by omega) _ pos)

theorem Refines.seq {es es' : List Expr} (h : List.Forall₂ Refines es es') :
    Refines (.seq es) (.seq es') := by
  obtain ⟨k, hk⟩ := refines_row h
  exact .of_succ fun g text d pos => inTurn_extends_row (hk g text d) pos

theorem Refines.choice {es es' : List Expr} (h : List.Forall₂ Refines es es') :
    Refines (.choice es) (.choice es') := by
  obtain ⟨k, hk⟩ := refines_row h
  exact .of_succ fun g text d pos => firstOf_extends_row (hk g text d) pos

theorem Agree.rep {e e' : Expr} (h : Agree e e') (how : Repetition) :
    Agree (.rep how e) (.rep how e') :=
  ⟨h.there.rep how, h.back.rep how⟩

theorem Agree.seq {es es' : List Expr} (h : List.Forall₂ Agree es es') :
    Agree (.seq es) (.seq es') :=
  ⟨.seq (h.imp fun _ _ => Agree.there), .seq (h.flip.imp fun _ _ => Agree.back)⟩

theorem Agree.choice {es es' : List Expr} (h : List.Forall₂ Agree es es') :
    Agree (.choice es) (.choice es') :=
  ⟨.choice (h.imp fun _ _ => Agree.there), .choice (h.flip.imp fun _ _ => Agree.back)⟩

/-! ### Grouping -/

theorem seq_one (e : Expr) : Agree e (.seq [e]) :=
  .of_same_steps fun _ _ _ pos => inTurn_one e pos

theorem choice_one (e : Expr) : Agree e (.choice [e]) :=
  .of_same_steps fun _ _ _ pos => firstOf_one e pos

/-- A sequence can be split in two. -/
theorem seq_append (es fs : List Expr) : Agree (.seq (es ++ fs)) (.seq [.seq es, .seq fs]) := by
  refine .of_same_steps (k := 1) fun g text d pos => ?_
  show inTurn (eval g text (d + 1)) [.seq es, .seq fs] pos = inTurn (eval g text d) (es ++ fs) pos
  rw [inTurn_append, inTurn_cons, funext (inTurn_one (.seq fs))]
  rfl

/-- A choice can be split in two. -/
theorem choice_append (es fs : List Expr) :
    Agree (.choice (es ++ fs)) (.choice [.choice es, .choice fs]) := by
  refine .of_same_steps (k := 1) fun g text d pos => ?_
  show firstOf (eval g text (d + 1)) [.choice es, .choice fs] pos =
    firstOf (eval g text d) (es ++ fs) pos
  rw [firstOf_append, firstOf_cons, firstOf_one]
  rfl

/-- Rows that mean the same can be put one after the other. -/
theorem Agree.seq_append {es es' fs fs' : List Expr} (h : Agree (.seq es) (.seq es'))
    (h' : Agree (.seq fs) (.seq fs')) : Agree (.seq (es ++ fs)) (.seq (es' ++ fs')) :=
  (Packrat.seq_append es fs).trans <|
    (Agree.seq (.cons h (.cons h' .nil))).trans (Packrat.seq_append es' fs').symm

theorem Agree.choice_append {es es' fs fs' : List Expr} (h : Agree (.choice es) (.choice es'))
    (h' : Agree (.choice fs) (.choice fs')) : Agree (.choice (es ++ fs)) (.choice (es' ++ fs')) :=
  (Packrat.choice_append es fs).trans <|
    (Agree.choice (.cons h (.cons h' .nil))).trans (Packrat.choice_append es' fs').symm

end PegScribe.Packrat
