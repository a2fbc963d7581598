import PegScribe.Proofs.Bodies
import PegScribe.Proofs.Keeping

/-!
Playing: what holds of every call on a recorder holds of every body that is played on it.

`Plays s inline holds` lists what a property of computations has to be true of: computations put together,
and each call that a term can come down to; `Builds` is the part of it for calls that push an expression.
Then it is true of every term (`Plays.play`) and of every body of the grammar (`Plays.perform`), however
deep they are played inside one another.
-/
namespace PegScribe.Stage
open Keeping
variable {s : Stage} {inline : Inline} {frame : Frame}

/-- Plays on and swallows a fault. -/
def swallow (x : Recording Value) : Recording Value := fun r =>
  match x r with
  | (.error _, r') => (.ok .absent, r')
  | ok => ok

/-- Where a body swallows a fault, the property carries over. -/
def Outlives (s : Stage) (holds : Recording Value → Prop) : Prop :=
  ∀ {body : Term} {x : Recording Value}, .attempt body ∈ s.terms → holds x → holds (swallow x)

theorem outlives_of_none {holds : Recording Value → Prop} (h : s.SwallowsNothing) : s.Outlives holds :=
  fun hmem _ => nomatch h _ hmem

theorem key_mem {t : Term} (ht : t ∈ s.terms) (k : RuleKey) (hk : t.key? = some k) : k ∈ s.keys :=
  List.mem_filterMap.mpr ⟨t, ht, hk⟩

variable [PatternLibrary]

/-- The property holds of computations put together, and of the calls that push an expression. -/
structure Builds (s : Stage) (holds : ∀ {α : Type}, Recording α → Prop) : Prop where
  pure : ∀ {α : Type} (a : α), holds (pure a : Recording α)
  throw : ∀ {α : Type} (f : Fault), holds (throw f : Recording α)
  bind : ∀ {α β : Type} {x : Recording α} {f : α → Recording β}, holds x →
    (∀ a, (∃ r r', x r = (.ok a, r')) → holds (f a)) → holds (x >>= f)
  token : ∀ v, holds (Recorder.token v)
  pattern : ∀ v, holds (Recorder.pattern v)
  wrapOne : ∀ (how : Wrapper) (count : Nat), holds (wrapOne how count)
  firstOf : ∀ n, holds (Recorder.firstOf n)
  callAction : ∀ {name : String} {target : ActionTarget} {args : List Value} (hasNames : Bool),
    s.actionTarget? name = some target → s.CallsAction name args.length →
    holds (s.callAction args hasNames target)

/-- The property holds of every call that a term comes down to. -/
structure Plays (s : Stage) (inline : Inline) (holds : ∀ {α : Type}, Recording α → Prop) : Prop
    extends Builds s holds where
  nonterminal : ∀ {key : Option RuleKey}, (∀ k, key = some k → k ∈ s.keys) →
    holds (Recorder.nonterminal key)
  closeRule : ∀ (object : String) (count : Nat), holds (closeRule object count)
  callRule : ∀ {name owner : String} {method : Method} {body : Script} (args : List Value),
    s.target? name = some (.rule method owner body) → holds (inline owner body args) →
    holds (Recorder.callRule method (do let _ ← inline owner body args))
  pop : holds (Recorder.pop >>= fun _ => (Pure.pure .absent : Recording Value))

/-- Terms that are played well give a value each. -/
theorem playAll_length : ∀ {ts : List Term} {vs : List Value},
    (∃ r r', playAll s inline frame ts r = (.ok vs, r')) → vs.length = ts.length
  | [], vs, ⟨r, r', h⟩ => by
    rw [playAll] at h
    cases h; rfl
  | t :: rest, vs, ⟨r, r', h⟩ => by
    rw [playAll] at h
    obtain ⟨v, r₁, -, h⟩ := bind_eq_ok.mp h
    obtain ⟨vs', r₂, hrest, h⟩ := bind_eq_ok.mp h
    cases h
    rw [List.length_cons, List.length_cons, playAll_length ⟨r₁, _, hrest⟩]

namespace Builds
variable {holds : ∀ {α : Type}, Recording α → Prop}

/-- A computation and then another, whatever the first one gives. -/
theorem chain (hp : Builds s holds) {α β : Type} {x : Recording α} {f : α → Recording β}
    (hx : holds x) (hf : ∀ a, holds (f a)) : holds (x >>= f) :=
  hp.bind hx fun a _ => hf a

/-- A computation whose value does not matter. -/
theorem unit (hp : Builds s holds) {x : Recording Unit} (hx : holds x) {β : Type} (b : β) :
    holds (x >>= fun _ => (Pure.pure b : Recording β)) :=
  hp.chain hx fun _ => hp.pure b

end Builds

namespace Plays
variable {holds : ∀ {α : Type}, Recording α → Prop}

theorem lookUp (hp : Plays s inline holds)
    (hin : ∀ owner script args, s.Holds script → holds (inline owner script args)) {target : Target}
    (h : s.Holds target.script) : holds (Stage.lookUp inline target) := by
  cases target with
  | getter owner body => exact hp.chain (hin owner body [] h) fun _ => hp.pure ()
  | _ => exact hp.pure ()

theorem callTarget (hp : Plays s inline holds)
    (hin : ∀ owner script args, s.Holds script → holds (inline owner script args)) {target : Target}
    (h : s.Holds target.script)
    (hrule : ∀ m owner body, target = .rule m owner body → ∃ name, s.target? name = some target)
    (args : List Value) : holds (Stage.callTarget inline args target) := by
  cases target with
  | rule m owner body =>
    obtain ⟨name, hname⟩ := hrule m owner body rfl
    exact hp.unit (hp.callRule args hname (hin owner body args h)) _
  | inline owner body => exact hin owner body args h
  | getter owner body => exact hp.throw _
  | inert type => exact hp.throw _

mutual

/-- What holds of every call holds of every term. -/
theorem play (hp : Plays s inline holds)
    (hin : ∀ owner script args, s.Holds script → holds (inline owner script args))
    (hpush : s.PushesNothing) (hswallow : s.Outlives holds) :
    ∀ t : Term, (∀ u ∈ t.parts, u ∈ s.terms) → holds (Stage.play s inline frame t)
  | .value v, _ => by rw [Stage.play]; exact hp.pure v
  | .nonterminal key, h => by
    rw [Stage.play]
    exact hp.unit (hp.nonterminal (key_mem (h _ (Term.self_mem_parts _)))) _
  | .is args, h => by
    rw [Stage.play]
    exact hp.chain (playAll hp hin hpush hswallow args fun u hu => h u (by simp [Term.parts, hu])) fun _ =>
      hp.unit (hp.closeRule _ _) _
  | .rule key args, h => by
    rw [Stage.play]
    exact hp.chain (hp.nonterminal (key_mem (h _ (Term.self_mem_parts _)))) fun _ =>
      hp.chain (playAll hp hin hpush hswallow args fun u hu => h u (by simp [Term.parts, hu])) fun _ =>
      hp.unit (hp.closeRule _ _) _
  | .token arg, h => by
    rw [Stage.play]
    exact hp.chain (play hp hin hpush hswallow arg fun u hu => h u (by simp [Term.parts, hu])) fun v =>
      hp.unit (hp.token v) _
  | .pattern arg, h => by
    rw [Stage.play]
    exact hp.chain (play hp hin hpush hswallow arg fun u hu => h u (by simp [Term.parts, hu])) fun v =>
      hp.unit (hp.pattern v) _
  | .wrap how args, h => by
    rw [Stage.play]
    exact hp.chain (playAll hp hin hpush hswallow args fun u hu => h u (by simp [Term.parts, hu])) fun _ =>
      hp.unit (hp.wrapOne how _) _
  | .firstOf args, h => by
    rw [Stage.play]
    exact hp.chain (playAll hp hin hpush hswallow args fun u hu => h u (by simp [Term.parts, hu])) fun _ =>
      hp.unit (hp.firstOf _) _
  | .action name args, h => by
    rw [Stage.play]
    cases htarget : s.actionTarget? name with
    | none => exact hp.throw _
    | some target =>
      have hargs : holds (Stage.playAll s inline frame args) :=
        playAll hp hin hpush hswallow args fun u hu => h u (by simp [Term.parts, hu])
      refine hp.bind hargs fun vs hvs => hp.callAction _ htarget ?_
      exact ⟨args, (playAll_length hvs).symm, .inl (h _ (Term.self_mem_parts _))⟩
  | .actionNamed name names args, h => by
    rw [Stage.play]
    cases htarget : s.actionTarget? name with
    | none => exact hp.throw _
    | some target =>
      have hargs : holds (Stage.playAll s inline frame args) :=
        playAll hp hin hpush hswallow args fun u hu => h u (by simp [Term.parts, hu])
      refine hp.bind hargs fun vs hvs => hp.callAction _ htarget ?_
      exact ⟨args, (playAll_length hvs).symm, .inr ⟨names, h _ (Term.self_mem_parts _)⟩⟩
  | .call name args, h => by
    rw [Stage.play]
    cases htarget : s.target? name with
    | none => exact hp.throw _
    | some target =>
      have hscript := (of_target? htarget).1
      exact hp.chain (hp.lookUp hin hscript) fun _ =>
        hp.chain (playAll hp hin hpush hswallow args fun u hu => h u (by simp [Term.parts, hu])) fun vs =>
        hp.callTarget hin hscript (fun _ _ _ _ => ⟨name, htarget⟩) vs
  | .inherited name args, h => by
    rw [Stage.play]
    cases htarget : s.inheritedTarget? frame.owner name with
    | none => exact hp.throw _
    | some target =>
      obtain ⟨hscript, hrule⟩ := of_inheritedTarget? htarget
      exact hp.chain (hp.lookUp hin hscript) fun _ =>
        hp.chain (playAll hp hin hpush hswallow args fun u hu => h u (by simp [Term.parts, hu])) fun vs =>
        hp.callTarget hin hscript (fun m owner body heq => absurd heq (hrule m owner body)) vs
  | .argument index, _ => by
    rw [Stage.play]
    unfold argumentAt
    dsimp only
    split
    · exact hp.pure _
    · exact hp.throw _
  | .push e, h => by
    have hnone := hpush _ (h _ (Term.self_mem_parts _))
    cases hnone
  | .pop, _ => by
    rw [Stage.play]
    exact hp.pop
  | .raise kind message, _ => by rw [Stage.play]; exact hp.throw _
  | .attempt body, h => by
    rw [Stage.play]
    exact hswallow (h _ (Term.self_mem_parts _))
      (play hp hin hpush hswallow body fun u hu => h u (by simp [Term.parts, hu]))

theorem playAll (hp : Plays s inline holds)
    (hin : ∀ owner script args, s.Holds script → holds (inline owner script args))
    (hpush : s.PushesNothing) (hswallow : s.Outlives holds) :
    ∀ ts : List Term, s.Holds ts → holds (Stage.playAll s inline frame ts)
  | [], _ => by rw [Stage.playAll]; exact hp.pure _
  | t :: rest, h => by
    rw [Stage.playAll]
    have hfirst := play hp hin hpush hswallow t fun u hu => h u (by simp [Term.partsAll, hu])
    have hrest := playAll hp hin hpush hswallow rest fun u hu => h u (by simp [Term.partsAll, hu])
    exact hp.chain hfirst fun _ => hp.chain hrest fun _ => hp.pure _

end

end Plays

/-- What holds of every call holds of every body, played to any depth up to a bound. -/
theorem Plays.perform {holds : ∀ {α : Type}, Recording α → Prop} (hpush : s.PushesNothing)
    (hswallow : s.Outlives holds)
    (hthrow : holds (MonadExcept.throw Fault.tooDeep : Recording Value)) {limit : Nat}
    (hp : ∀ depth < limit, Plays s (Stage.perform s depth) holds) :
    ∀ depth ≤ limit, ∀ owner script args, s.Holds script →
      holds (Stage.perform s depth owner script args)
  | 0, _, _, _, _, _ => hthrow
  | depth + 1, hle, _, script, _, h =>
    (hp depth hle).chain ((hp depth hle).playAll (Plays.perform hpush hswallow hthrow hp depth (by omega))
      hpush hswallow script h) fun _ => (hp depth hle).pure _

end PegScribe.Stage
