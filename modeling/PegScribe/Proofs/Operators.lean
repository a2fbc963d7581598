import Mathlib.Logic.Relation
import PegScribe.Proofs.Laws
import PegScribe.Proofs.Replacing

/-!
Operators: laws that say some operators in terms of others, in every context.

`e+` is `e e*` and `e?` is `e / ()`; a sequence inside a sequence, or a choice inside a choice, can be
written out; and one part alone needs no operator. Each law is an agreement of two expressions
(`Law.agree`), which every operator keeps (`Rewrites.agree`), so that bodies rewritten by them serve for one
another in every run (`Agree.serves`).
-/
namespace PegScribe

namespace Expr

/-- The first expression is written as the second in terms of other operators. -/
inductive Law : Expr → Expr → Prop
  | oneOrMore (e : Expr) : Law (.rep .oneOrMore e) (.seq [e, .rep .zeroOrMore e])
  | optional (e : Expr) : Law (.rep .optional e) (.choice [e, .seq []])
  | nestedSeq (before items after : List Expr) :
    Law (.seq (before ++ .seq items :: after)) (.seq (before ++ (items ++ after)))
  | nestedChoice (before alts after : List Expr) :
    Law (.choice (before ++ .choice alts :: after)) (.choice (before ++ (alts ++ after)))
  | loneItem (e : Expr) : Law (.seq [e]) e
  | loneAlternative (e : Expr) : Law (.choice [e]) e

/-- A law is applied somewhere in the expression. -/
inductive Rewrites : Expr → Expr → Prop
  | law {e e' : Expr} (h : Law e e') : Rewrites e e'
  | rep (how : Repetition) {e e' : Expr} (h : Rewrites e e') : Rewrites (.rep how e) (.rep how e')
  | item (before : List Expr) {e e' : Expr} (h : Rewrites e e') (after : List Expr) :
    Rewrites (.seq (before ++ e :: after)) (.seq (before ++ e' :: after))
  | alternative (before : List Expr) {e e' : Expr} (h : Rewrites e e') (after : List Expr) :
    Rewrites (.choice (before ++ e :: after)) (.choice (before ++ e' :: after))

end Expr

/-- The grammars have the same rules and root, but for laws applied anywhere in their bodies, any number of
times and either way. -/
structure Grammar.Rewritten (g g' : Grammar) : Prop where
  root : g'.root = g.root
  rules : ∀ key, Option.Rel (Relation.EqvGen Expr.Rewrites) (g.rules.get? key) (g'.rules.get? key)

namespace Packrat
variable [PatternLibrary] {e e' : Expr}

/-! ### Each law by itself -/

/-- Some rounds are one round and then any number of rounds: what is worked out for `e+` is worked out for
`e e*` one level further down. -/
theorem agree_oneOrMore (e : Expr) : Agree (.rep .oneOrMore e) (.seq [e, .rep .zeroOrMore e]) where
  there := .of_succ (k := 1) fun g text d pos => by
    refine (eval_succ_extends g text d e pos).bind fun m => ?_
    cases m with
    | none => exact Extends.refl _
    | some found =>
      show Extends _ (inTurn (eval g text (d + 1)) [.rep .zeroOrMore e] found.1 >>= _)
      rw [inTurn_one]
      show Extends _ ((many (eval g text d e) (roundsFrom text found.1) found.1 >>= _) >>= _)
      rw [bind_assoc]
      exact Extends.refl _
  back := .of_succ (k := 0) fun g text d pos => by
    refine (Extends.refl (eval g text d e pos)).bind fun m => ?_
    cases m with
    | none => exact Extends.refl _
    | some found =>
      show Extends (inTurn (eval g text d) [.rep .zeroOrMore e] found.1 >>= _) _
      rw [inTurn_one]
      cases d with
      | zero => exact Extends.throw_tooDeep _
      | succ d =>
        show Extends ((many (eval g text d e) (roundsFrom text found.1) found.1 >>= _) >>= _) _
        rw [bind_assoc]
        exact (many_extends (eval_succ_extends g text d e) (Nat.le_refl _) found.1).bind
          fun _ => Extends.refl _

theorem agree_optional (e : Expr) : Agree (.rep .optional e) (.choice [e, .seq []]) where
  there := .of_succ (k := 1) fun g text d pos => by
    refine (eval_succ_extends g text d e pos).bind fun m => ?_
    cases m with
    | none => exact Extends.refl _
    | some found => exact Extends.refl _
  back := .of_succ (k := 0) fun g text d pos => by
    cases d with
    | zero => exact Extends.throw_tooDeep _
    | succ d =>
      refine (Extends.refl (eval g text (d + 1) e pos)).bind fun m => ?_
      cases m with
      | none => exact Extends.refl _
      | some found => exact Extends.refl _

theorem agree_nestedSeq (before items after : List Expr) :
    Agree (.seq (before ++ .seq items :: after)) (.seq (before ++ (items ++ after))) := by
  have hinner : Agree (.seq ([.seq items] ++ after)) (.seq (items ++ after)) :=
    .seq_append (seq_one (.seq items)).symm (.refl (.seq after))
  exact .seq_append (.refl (.seq before)) hinner

theorem agree_nestedChoice (before alts after : List Expr) :
    Agree (.choice (before ++ .choice alts :: after)) (.choice (before ++ (alts ++ after))) := by
  have hinner : Agree (.choice ([.choice alts] ++ after)) (.choice (alts ++ after)) :=
    .choice_append (choice_one (.choice alts)).symm (.refl (.choice after))
  exact .choice_append (.refl (.choice before)) hinner

end Packrat

/-! ### Laws in context -/

section Context
variable [PatternLibrary] {e e' : Expr}

theorem Expr.Law.agree (h : e.Law e') : Packrat.Agree e e' := by
  cases h with
  | oneOrMore e => exact Packrat.agree_oneOrMore e
  | optional e => exact Packrat.agree_optional e
  | nestedSeq before items after => exact Packrat.agree_nestedSeq before items after
  | nestedChoice before alts after => exact Packrat.agree_nestedChoice before alts after
  | loneItem => exact (Packrat.seq_one _).symm
  | loneAlternative => exact (Packrat.choice_one _).symm

/-- One part that agrees with another can be put in its place. -/
theorem Packrat.Agree.forall₂_inside (h : Agree e e') (before after : List Expr) :
    List.Forall₂ Agree (before ++ e :: after) (before ++ e' :: after) :=
  List.rel_append (List.forall₂_same.mpr fun part _ => Agree.refl part)
    (.cons h (List.forall₂_same.mpr fun part _ => Agree.refl part))

theorem Expr.Rewrites.agree (h : e.Rewrites e') : Packrat.Agree e e' := by
  induction h with
  | law h => exact h.agree
  | rep how _ ih => exact ih.rep how
  | item before _ after ih => exact .seq (ih.forall₂_inside before after)
  | alternative before _ after ih => exact .choice (ih.forall₂_inside before after)

theorem agree_of_rewrites (h : Relation.EqvGen Expr.Rewrites e e') : Packrat.Agree e e' := by
  induction h with
  | rel _ _ h => exact h.agree
  | refl e => exact .refl e
  | symm _ _ _ ih => exact ih.symm
  | trans _ _ _ _ _ ih ih' => exact ih.trans ih'

end Context

/-! ### Whole runs -/

namespace Packrat
variable [PatternLibrary] {g g' : Grammar} {text : Array Char}

/-- What refines a body serves for it: a try is reached with depth enough, and an answer is a try. -/
theorem Refines.serves {e e' : Expr} (h : Refines e e') (key : RuleKey) : Serves g text key e e' := by
  intro pos r m r' hr _ htries
  obtain ⟨d, hd⟩ := reaches_of_tries htries hr
  obtain ⟨extra, hextra⟩ := h
  exact tries_of_eval ((hextra g text d pos).of_ok hd)

theorem replaces_of_rewritten (h : g.Rewritten g') : Replaces g g' text := by
  intro key body hbody
  have hrule := h.rules key
  rw [hbody] at hrule
  cases hbody' : g'.rules.get? key with
  | none => rw [hbody'] at hrule; cases hrule
  | some body' =>
    rw [hbody'] at hrule
    cases hrule with
    | some hrewrites => exact ⟨body', rfl, (agree_of_rewrites hrewrites).there.serves key⟩

end Packrat

theorem Grammar.Rewritten.symm {g g' : Grammar} (h : g.Rewritten g') : g'.Rewritten g where
  root := h.root.symm
  rules := fun key => by
    have hrule := h.rules key
    revert hrule
    generalize g.rules.get? key = body
    generalize g'.rules.get? key = body'
    intro hrule
    cases hrule with
    | none => exact .none
    | some h => exact .some (.symm _ _ h)

/-- The laws of operators hold in every context. Wherever they are applied in the rules of a program, a run
comes to the same: to the same tree, that covers as much of the text, or to a failure at the same place
with the same report. If the program is linked and has a root it does come to an outcome. -/
theorem operator_laws_hold [PatternLibrary] (p q : Program) (hg : p.grammar.Rewritten q.grammar)
    (hpatterns : q.patterns.meaning? = p.patterns.meaning?) (source : Source) :
    (∀ outcome, p.RunsTo source outcome ↔ q.RunsTo source outcome) ∧
    (p.grammar.Linked p.patterns → p.grammar.rules.contains p.start = true →
      ∃ outcome, p.RunsTo source outcome) := by
  have hstart : q.start = p.start := by
    unfold Program.start
    rw [hg.root]
  refine ⟨fun outcome => ⟨fun h => ?_, fun h => ?_⟩, fun hp hroot => ?_⟩
  · exact h.replace (Packrat.replaces_of_rewritten hg) hstart hpatterns
  · exact h.replace (Packrat.replaces_of_rewritten hg.symm) hstart.symm hpatterns.symm
  · obtain ⟨body, hbody⟩ := Option.isSome_iff_exists.mp hroot
    exact Program.runs_of_linked hp hbody source

/-- Some `a`, and perhaps a `b`. -/
def shortForm : Program :=
  let word := RuleKey.given "word" "word"
  { grammar :=
      { rules := ⟨[(word, .seq [.rep .oneOrMore (.literal "a"), .rep .optional (.seq [.literal "b"])])]⟩
        root := some word }
    patterns := {} }

/-- The same, written without the two operators. -/
def longForm : Program :=
  let word := RuleKey.given "word" "word"
  { grammar :=
      { rules := ⟨[(word, .seq [.literal "a", .rep .zeroOrMore (.literal "a"),
          .choice [.literal "b", .seq []]])]⟩
        root := some word }
    patterns := {} }

theorem operator_laws_hold_short_form :
    shortForm.grammar.Rewritten longForm.grammar ∧
    shortForm.RunsTo (.ofString "ab") (.matched (.node (.given "word" "word") 0 2
      [.leaf 0 1, .leaf 1 2]) 2) ∧
    longForm.RunsTo (.ofString "ab") (.matched (.node (.given "word" "word") 0 2
      [.leaf 0 1, .leaf 1 2]) 2) := by
  let word := RuleKey.given "word" "word"
  have hbody : Relation.EqvGen Expr.Rewrites
      (.seq [.rep .oneOrMore (.literal "a"), .rep .optional (.seq [.literal "b"])])
      (.seq [.literal "a", .rep .zeroOrMore (.literal "a"), .choice [.literal "b", .seq []]]) := by
    refine .trans _ _ _ (.rel _ _ (.item [] (.law (.oneOrMore _)) _)) ?_
    refine .trans _ _ _ (.rel _ _ (.law (.nestedSeq [] _ _))) ?_
    refine .trans _ _ _ (.rel _ _ (.item [_, _] (.law (.optional _)) [])) ?_
    exact .rel _ _ (.item [_, _] (.alternative [] (.law (.loneItem _)) [_]) [])
  have hrewritten : shortForm.grammar.Rewritten longForm.grammar := by
    refine ⟨rfl, fun key => ?_⟩
    by_cases hkey : word = key
    · subst hkey
      exact .some hbody
    · simp [shortForm, longForm, Ledger.get?, Ledger.valueIn, hkey, word]
  have hlinked : shortForm.grammar.Linked shortForm.patterns := by
    intro key body h
    have hmem := Ledger.mem_entries_of_get? h
    simp only [shortForm, List.mem_cons, Prod.mk.injEq, List.not_mem_nil, or_false] at hmem
    obtain ⟨-, rfl⟩ := hmem
    refine .seq fun e he => ?_
    simp only [List.mem_cons, List.not_mem_nil, or_false] at he
    rcases he with rfl | rfl
    · exact .oneOrMore (.literal "a")
    · refine .optional (.seq fun e he => ?_)
      cases List.mem_singleton.mp he
      exact .literal "b"
  obtain ⟨hsame, hruns⟩ := operator_laws_hold shortForm longForm hrewritten rfl (.ofString "ab")
  obtain ⟨outcome, hshort⟩ := hruns hlinked rfl
  have hlong := (hsame outcome).mp hshort
  -- the long form takes one letter after the other
  let text := (Source.ofString "ab").chars
  have ha : Packrat.Yields longForm.grammar {} text (.literal "a") 0 (some (1, [.leaf 0 1])) _ :=
    .literalHit (by decide)
  have hmore : Packrat.Yields longForm.grammar {} text (.rep .zeroOrMore (.literal "a")) 1
      (some (1, [])) _ := .manyEnd (.literalMiss (by decide))
  have hb : Packrat.Yields longForm.grammar {} text (.choice [.literal "b", .seq []]) 1
      (some (2, [.leaf 1 2])) _ := .choiceHit (.literalHit (by decide))
  have hmatch : Packrat.Yields longForm.grammar {} text (.call word) 0
      (.ofTree (some (.node word 0 2 [.leaf 0 1, .leaf 1 2]))) _ :=
    .rule rfl (.seqHit ha (.seqHit hmore (.seqHit hb .seqNil)))
  obtain ⟨d, r, hd⟩ := Packrat.parse_of_yields hmatch ⟨by decide, by decide⟩
  have hrun := Program.runWithin_matched (p := longForm) (hd d (Nat.le_refl d)) rfl
  cases hlong.eq_of_run hrun
  exact ⟨hrewritten, hshort, hlong⟩

end PegScribe
