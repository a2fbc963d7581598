import PegScribe.Proofs.Depth

/-!
Faults of a run: the few things that can break one off before it comes to a verdict.
-/
namespace PegScribe.Packrat
variable {α β : Type} {g : Grammar} {text : Array Char}

/-- What can break a run off. -/
inductive Breaks : Fault → Prop
  | tooDeep : Breaks .tooDeep
  | undefinedRule (key : RuleKey) : Breaks (.grammar (.undefinedRule key))
  | regex (words : String) : Breaks (.regex words)
  | breach (b : Breach) : Breaks (.breach b)
  | call (f : CallFault) : Breaks (.call f)

/-- Nothing else breaks the computation off. -/
def Guarded (x : Engine α) : Prop := ∀ r f, x r = .error f → Breaks f

theorem guarded_pure (a : α) : Guarded (pure a) := by rintro r f ⟨⟩

theorem guarded_modify (f : Run → Run) : Guarded (modify f) := by rintro r f ⟨⟩

theorem guarded_get : Guarded (get : Engine Run) := by rintro r f ⟨⟩

theorem guarded_throw {f : Fault} (hf : Breaks f) : Guarded (throw f : Engine α) := by
  rintro r _ ⟨⟩; exact hf

theorem guarded_lift {x : Except Fault α} (hx : ∀ f, x = .error f → Breaks f) :
    Guarded (StateT.lift x : Engine α) := by
  intro r f h
  cases x with
  | ok a => cases h
  | error f' => cases h; exact hx _ rfl

theorem Guarded.bind {x : Engine α} {f : α → Engine β} (hx : Guarded x)
    (hf : ∀ a, Guarded (f a)) : Guarded (x >>= f) := by
  intro r e h
  rw [bind_run] at h
  cases hr : x r with
  | error e' => rw [hr] at h; cases h; exact hx r _ hr
  | ok p => rw [hr] at h; exact hf p.1 p.2 e h

theorem guarded_terminal (e : Expr) (pos : Int) :
    ∀ stop : Option Int, Guarded (terminal e pos stop)
  | some _ => guarded_pure _
  | none => (guarded_modify _).bind fun _ => guarded_pure _

theorem guarded_compiled [PatternLibrary] (source : String) : Guarded (compiled source) := by
  refine guarded_get.bind fun r => (guarded_lift ?_).bind fun _ =>
    (guarded_modify _).bind fun _ => guarded_pure _
  intro f h
  unfold PatternTable.compile at h
  split at h
  · cases h
  · split at h
    · cases h
    · cases h; exact .regex _

section Operators
variable {attempt : Expr → Int → Engine Match} (h : ∀ e pos, Guarded (attempt e pos))
include h

theorem guarded_inTurn : ∀ es pos, Guarded (inTurn attempt es pos)
  | [], pos => guarded_pure _
  | e :: rest, pos => by
    refine (h e pos).bind fun m => ?_
    cases m with
    | none => exact guarded_pure _
    | some found =>
      refine (guarded_inTurn rest found.1).bind fun m => ?_
      cases m <;> exact guarded_pure _

theorem guarded_firstOf : ∀ es pos, Guarded (firstOf attempt es pos)
  | [], pos => guarded_pure _
  | e :: rest, pos => by
    refine (h e pos).bind fun m => ?_
    cases m with
    | none => exact guarded_firstOf rest pos
    | some found => exact guarded_pure _

theorem guarded_many (e : Expr) : ∀ budget pos, Guarded (many (attempt e) budget pos)
  | 0, pos => guarded_throw .tooDeep
  | budget + 1, pos => by
    refine (h e pos).bind fun m => ?_
    cases m with
    | none => exact guarded_pure _
    | some found =>
      dsimp only
      split
      · exact guarded_pure _
      · exact (guarded_many e budget found.1).bind fun _ => guarded_pure _

theorem guarded_apply (key : RuleKey) (pos : Int) : Guarded (apply g attempt key pos) := by
  refine guarded_get.bind fun r => ?_
  split
  · exact guarded_pure _
  · exact guarded_pure _
  · refine (guarded_modify _).bind fun _ => (guarded_lift ?_).bind fun body =>
      (h body pos).bind fun _ => (guarded_modify _).bind fun _ => guarded_pure _
    intro f hf
    unfold Grammar.body at hf
    split at hf
    · cases hf
    · cases hf; exact .undefinedRule key

end Operators

variable [PatternLibrary]

theorem guarded_eval (g : Grammar) (text : Array Char) : ∀ d e pos, Guarded (eval g text d e pos)
  | 0, e, pos => guarded_throw .tooDeep
  | d + 1, e, pos => by
    have ih := guarded_eval g text d
    cases e with
    | literal t => exact guarded_terminal _ _ _
    | pattern source => exact (guarded_compiled source).bind fun _ => guarded_terminal _ _ _
    | call key => exact (guarded_apply ih key pos).bind fun _ => guarded_pure _
    | late callee => exact guarded_throw (.breach _)
    | rep how body =>
      cases how with
      | optional =>
        refine (ih body pos).bind fun m => ?_
        cases m <;> exact guarded_pure _
      | zeroOrMore => exact (guarded_many ih body _ pos).bind fun _ => guarded_pure _
      | oneOrMore =>
        refine (ih body pos).bind fun m => ?_
        cases m with
        | none => exact guarded_pure _
        | some found => exact (guarded_many ih body _ found.1).bind fun _ => guarded_pure _
      | unknown mark => exact guarded_throw (.breach _)
    | seq items => exact guarded_inTurn ih items pos
    | choice alts => exact guarded_firstOf ih alts pos
    | misfit shown type => exact guarded_throw (.call _)
    | foreign shown => exact guarded_throw (.breach _)

theorem parse_error {patterns : PatternTable} {d : Nat} {key : RuleKey} {pos : Int} {f : Fault}
    (h : parse g patterns d key text pos = .error f) : Breaks f := by
  have happly := guarded_apply (g := g) (guarded_eval g text d) key pos { patterns } f
  unfold parse StateT.run at h
  cases hrun : apply g (eval g text d) key pos { patterns } with
  | error f' => rw [hrun] at h; cases h; exact happly hrun
  | ok found => rw [hrun] at h; cases h

end PegScribe.Packrat
