import Mathlib.Data.List.Forall2
import PegScribe.Parser
import PegScribe.Proofs.Bodies

/-!
Reordering: the order in which a class defines its members.

A name finds the same member whatever the order (`Lineage.Reordered.find?`), and the public methods are
the same but for their order (`Lineage.Reordered.public?`). So the bodies of a grammar play the same
(`Stage.Same.play`), and recording goes through the same rule methods in another order.
-/
namespace PegScribe

/-! ### Ledgers -/

namespace Ledger
variable {κ ν : Type} [DecidableEq κ]

/-- With each key written once, the order of the entries does not matter to look-ups. -/
theorem get?_perm {l l' : Ledger κ ν} (hnd : l.keys.Nodup) (h : l.entries.Perm l'.entries) (k : κ) :
    l'.get? k = l.get? k := by
  have hnd' : l'.keys.Nodup := (h.map Prod.fst).nodup_iff.mp hnd
  ext v
  rw [← mem_entries_iff hnd', ← mem_entries_iff hnd]
  exact h.mem_iff.symm

/-- If one value only is written beside a key, it is the key's. -/
theorem get?_of_only {l : Ledger κ ν} {k : κ} {v : ν} (h : (k, v) ∈ l.entries)
    (honly : ∀ w, (k, w) ∈ l.entries → w = v) : l.get? k = some v := by
  obtain ⟨entries⟩ := l
  unfold get?
  dsimp only at h honly ⊢
  induction entries with
  | nil => cases h
  | cons e rest ih =>
    unfold valueIn
    split
    · rename_i hk
      rw [honly e.2 (hk ▸ List.mem_cons_self ..)]
    · rename_i hk
      refine ih ((List.mem_cons.mp h).resolve_left fun heq => hk (by rw [← heq])) fun w hw => ?_
      exact honly w (List.mem_cons_of_mem _ hw)

/-- Of the pairs written after one another, the last with a key counts. -/
theorem get?_foldl_insert (k : κ) : ∀ (pairs : List (κ × ν)) (l : Ledger κ ν),
    (pairs.foldl (fun l p => l.insert p.1 p.2) l).get? k = (get? ⟨pairs.reverse⟩ k).or (l.get? k)
  | [], l => rfl
  | p :: rest, l => by
    have happend : ∀ es : List (κ × ν), valueIn (es ++ [p]) k =
        (valueIn es k).or (if p.1 = k then some p.2 else none) := by
      intro es
      induction es with
      | nil => rfl
      | cons e es ih =>
        rw [List.cons_append, valueIn, valueIn]
        split
        · rfl
        · exact ih
    have hlast : get? ⟨rest.reverse ++ [p]⟩ k =
        (get? ⟨rest.reverse⟩ k).or (if p.1 = k then some p.2 else none) := happend rest.reverse
    rw [List.foldl_cons, get?_foldl_insert k rest, get?_insert, List.reverse_cons, hlast, Option.or_assoc]
    split <;> rfl

end Ledger

/-! ### Classes -/

section Classes
variable {α β : Type} {c c' : ClassDecl α} {l l' : Lineage α}

/-- The classes differ only in the order of their members. -/
structure ClassDecl.Reordered (c c' : ClassDecl α) : Prop where
  name : c'.name = c.name
  id : c'.id = c.id
  bases : c'.bases = c.bases
  members : c.members.entries.Perm c'.members.entries

/-- So do all classes in the search order. -/
def Lineage.Reordered (l l' : Lineage α) : Prop := List.Forall₂ ClassDecl.Reordered l l'

theorem ClassDecl.Reordered.get? (h : c.Reordered c') (name : String) :
    c'.members.get? name = c.members.get? name :=
  Ledger.get?_perm c.once h.members name

namespace Lineage

/-- A name finds the same member, of the class of the same name. -/
theorem Reordered.find? {f : ClassDecl α × Member α → β}
    (hf : ∀ {c c' m}, c.Reordered c' → f (c', m) = f (c, m)) (h : Reordered l l') (name : String) :
    (find? l' name).map f = (find? l name).map f := by
  induction h with
  | nil => rfl
  | @cons c c' l l' hc _ ih =>
    unfold Lineage.find? at ih ⊢
    rw [List.findSome?_cons, List.findSome?_cons, hc.get? name]
    cases c.members.get? name with
    | none => exact ih
    | some m => exact congrArg some (hf hc)

theorem Reordered.after (h : Reordered l l') (owner : String) :
    Reordered ((l.dropWhile fun c => c.id ≠ owner).tail)
      ((l'.dropWhile fun c => c.id ≠ owner).tail) := by
  induction h with
  | nil => exact .nil
  | @cons c c' l l' hc hl ih =>
    rw [List.dropWhile_cons, List.dropWhile_cons, hc.id]
    split
    · exact ih
    · exact hl

/-- The public method of a name and the class that defines it. -/
def public? (l : Lineage α) (stop : Option (ClassDecl α)) (name : String) : Option (ClassDecl α × α) :=
  Ledger.get? ⟨publicMethods l stop⟩ name

theorem mem_publicMethods {stop : Option (ClassDecl α)} {x : String × (ClassDecl α × α)} :
    x ∈ publicMethods l stop ↔ public? l stop x.1 = some x.2 :=
  Ledger.mem_entries_iff (Ledger.nodup_keys_ofList _)

/-- The method that a class defines by a name, if it is public. -/
theorem get?_methodsOf (c : ClassDecl α) (skip : String → Bool) (name : String) :
    Ledger.get? ⟨(methodsOf skip c).reverse⟩ name =
      if name.startsWith "_" || skip name then none
      else match c.members.get? name with
        | some (.method body) => some (c, body)
        | _ => none := by
  have hmem : ∀ {n v}, (n, v) ∈ methodsOf skip c ↔ (n.startsWith "_" || skip n) = false ∧
      ∃ body, c.members.get? n = some (.method body) ∧ v = (c, body) := by
    intro n v
    unfold methodsOf
    rw [List.mem_filterMap]
    constructor
    · rintro ⟨⟨n', m⟩, hentry, hm⟩
      dsimp only at hm
      cases m with
      | method body =>
        dsimp only at hm
        split at hm
        · cases hm
        · rename_i hpublic
          cases hm
          exact ⟨by simpa using hpublic, body, Ledger.get?_of_mem c.once hentry, rfl⟩
      | _ => cases hm
    · rintro ⟨hpublic, body, hbody, rfl⟩
      refine ⟨(n, .method body), Ledger.mem_entries_of_get? hbody, ?_⟩
      dsimp only
      rw [hpublic, if_neg Bool.false_ne_true]
  have hget : ∀ v, Ledger.get? ⟨(methodsOf skip c).reverse⟩ name = some v ↔
      (name, v) ∈ methodsOf skip c := by
    intro v
    refine ⟨fun h => List.mem_reverse.mp (Ledger.mem_entries_of_get? h), fun h => ?_⟩
    refine Ledger.get?_of_only (List.mem_reverse.mpr h) fun w hw => ?_
    obtain ⟨-, body, hbody, rfl⟩ := hmem.mp h
    obtain ⟨-, body', hbody', rfl⟩ := hmem.mp (List.mem_reverse.mp hw)
    cases hbody.symm.trans hbody'
    rfl
  ext v
  rw [hget, hmem]
  split
  · rename_i hhidden
    simp [hhidden]
  · rename_i hpublic
    rw [Bool.not_eq_true] at hpublic
    split
    · rename_i body hbody
      simp [hpublic, hbody, eq_comm]
    · rename_i hnone
      constructor
      · rintro ⟨-, body, hbody, -⟩
        exact absurd hbody (hnone body)
      · intro h
        cases h

/-- The methods of classes written after one another. -/
theorem Reordered.written {f : ClassDecl α × α → β}
    (hf : ∀ {c c' body}, c.Reordered c' → f (c', body) = f (c, body)) (skip : String → Bool)
    (name : String) (h : Reordered l l') : ∀ {done done' : Ledger String (ClassDecl α × α)},
    (done'.get? name).map f = (done.get? name).map f →
    (((l'.flatMap (methodsOf skip)).foldl (fun d p => d.insert p.1 p.2) done').get? name).map f =
      (((l.flatMap (methodsOf skip)).foldl (fun d p => d.insert p.1 p.2) done).get? name).map f := by
  induction h with
  | nil => exact id
  | @cons c c' l l' hc _ ih =>
    intro done done' hdone
    rw [List.flatMap_cons, List.flatMap_cons, List.foldl_append, List.foldl_append]
    refine ih ?_
    rw [Ledger.get?_foldl_insert, Ledger.get?_foldl_insert, get?_methodsOf c,
      get?_methodsOf c', hc.get? name]
    split
    · exact hdone
    · split
      · exact congrArg some (hf hc)
      · exact hdone

/-- The public method of a name is the same, of the class of the same name. -/
theorem Reordered.public? {f : ClassDecl α × α → β}
    (hf : ∀ {c c' body}, c.Reordered c' → f (c', body) = f (c, body)) (h : Reordered l l')
    (stop : Option (ClassDecl α)) (name : String) :
    (public? l' stop name).map f = (public? l stop name).map f := by
  unfold Lineage.public? publicMethods
  refine Reordered.written hf _ name ?_ rfl
  refine List.rel_filter (fun c c' hc => ?_) (List.rel_reverse h)
  dsimp only
  rw [hc.id]

end Lineage
end Classes

/-! ### Grammars -/

namespace GrammarClass
variable {g g' : GrammarClass}

theorem name_reordered (h : Lineage.Reordered g g') : g'.name = g.name := by
  cases h with
  | nil => rfl
  | cons hc _ => exact hc.name

theorem id_reordered (h : Lineage.Reordered g g') : g'.id = g.id := by
  cases h with
  | nil => rfl
  | cons hc _ => exact hc.id

theorem isGrammar_reordered (h : Lineage.Reordered g g') : g'.isGrammar = g.isGrammar := by
  unfold isGrammar
  induction h with
  | nil => rfl
  | cons hc _ ih => rw [List.any_cons, List.any_cons, hc.id, ih]

theorem mem_rules_iff {x : String × (Method × Script)} : x ∈ g.rules ↔
    ((Lineage.public? g (some grammarBase) x.1).map fun (owner, body) =>
      ((⟨owner.name ++ "." ++ x.1⟩ : Method), body)) = some x.2 := by
  unfold rules
  rw [List.mem_map, Option.map_eq_some_iff]
  constructor
  · rintro ⟨y, hy, rfl⟩
    exact ⟨y.2, Lineage.mem_publicMethods.mp hy, rfl⟩
  · rintro ⟨v, hv, hx⟩
    exact ⟨(x.1, v), Lineage.mem_publicMethods.mpr hv, Prod.ext rfl hx⟩

/-- The rule methods are the same. -/
theorem mem_rules_reordered (h : Lineage.Reordered g g') {x : String × (Method × Script)} :
    x ∈ g'.rules ↔ x ∈ g.rules := by
  rw [mem_rules_iff, mem_rules_iff, h.public? (fun hc => by dsimp only; rw [hc.name]) _ x.1]

theorem perm_rules (h : Lineage.Reordered g g') : g.rules.Perm g'.rules := by
  have hnd : ∀ g : GrammarClass, g.rules.Nodup := fun g =>
    List.Pairwise.of_map Prod.fst (fun _ _ hne heq => hne (congrArg Prod.fst heq)) g.nodup_rules
  exact (List.perm_ext_iff_of_nodup (hnd g) (hnd g')).mpr fun x => (mem_rules_reordered h).symm

theorem find?_rules_iff {name : String} {x : String × (Method × Script)} :
    g.rules.find? (fun (n, _) => n = name) = some x ↔ x ∈ g.rules ∧ x.1 = name := by
  constructor
  · intro h
    exact ⟨List.mem_of_find?_eq_some h, by simpa using List.find?_some h⟩
  · rintro ⟨hx, rfl⟩
    exact find?_rules hx

theorem find?_rules_reordered (h : Lineage.Reordered g g') (name : String) :
    g'.rules.find? (fun (n, _) => n = name) = g.rules.find? fun (n, _) => n = name := by
  ext x
  rw [find?_rules_iff, find?_rules_iff, mem_rules_reordered h]

theorem ownerOf_eq (g : GrammarClass) (rule : String) : g.ownerOf rule =
    ((Lineage.public? g (some grammarBase) rule).map fun (owner, _) => owner.id).getD g.id := by
  unfold ownerOf
  split
  · rename_i name owner body hfound
    obtain rfl : name = rule := by simpa using List.find?_some hfound
    have hpublic := Lineage.mem_publicMethods.mp (List.mem_of_find?_eq_some hfound)
    rw [hpublic]
    rfl
  · rename_i hnone
    cases hpublic : Lineage.public? g (some grammarBase) rule with
    | none => rfl
    | some v =>
      have hmem : (rule, v) ∈ Lineage.publicMethods g (some grammarBase) :=
        Lineage.mem_publicMethods.mpr hpublic
      simpa using List.find?_eq_none.mp hnone _ hmem

theorem ownerOf_reordered (h : Lineage.Reordered g g') (rule : String) :
    g'.ownerOf rule = g.ownerOf rule := by
  rw [ownerOf_eq, ownerOf_eq, h.public? (fun hc => hc.id) _ rule, id_reordered h]

end GrammarClass

/-! ### Stages -/

/-- The stages differ in nothing that a body can find on them. -/
structure Stage.Same (s s' : Stage) : Prop where
  factory : s'.factory = s.factory
  limit : s'.limit = s.limit
  name : s'.grammar.name = s.grammar.name
  id : s'.grammar.id = s.grammar.id
  target : ∀ name, s'.target? name = s.target? name
  inherited : ∀ owner name, s'.inheritedTarget? owner name = s.inheritedTarget? owner name

namespace Stage
variable {s s' : Stage} {g' : GrammarClass}

theorem same_of_reordered (h : Lineage.Reordered s.grammar g') : Same s { s with grammar := g' } := by
  have htargetOf : ∀ {c c' : ClassDecl Script} {m}, c.Reordered c' → targetOf c' m = targetOf c m := by
    intro c c' m hc
    cases m <;> simp only [targetOf, hc.id]
  refine ⟨rfl, rfl, GrammarClass.name_reordered h, GrammarClass.id_reordered h, fun name => ?_,
    fun owner name => ?_⟩
  · unfold target?
    dsimp only
    rw [GrammarClass.find?_rules_reordered h, GrammarClass.ownerOf_reordered h,
      h.find? (f := fun x => targetOf x.1 x.2) htargetOf name]
  · exact (h.after owner).find? (f := fun x => targetOf x.1 x.2) htargetOf name

theorem Same.actionTarget? (h : Same s s') (name : String) :
    s'.actionTarget? name = s.actionTarget? name := by
  unfold Stage.actionTarget?
  rw [h.factory]

theorem Same.callAction (h : Same s s') (args : List Value) (hasNames : Bool) (target : ActionTarget) :
    s'.callAction args hasNames target = s.callAction args hasNames target := by
  unfold Stage.callAction
  rw [h.factory]

variable [PatternLibrary]

mutual

/-- A term plays the same on both. -/
theorem Same.play (h : Same s s') (inline : Inline) (frame : Frame) :
    ∀ t : Term, play s' inline frame t = play s inline frame t
  | .value v | .nonterminal key | .argument index | .pop | .raise kind message => by
    rw [Stage.play, Stage.play]
  | .push e => by cases e <;> rw [Stage.play, Stage.play]
  | .is args | .rule key args | .wrap how args | .firstOf args => by
    rw [Stage.play, Stage.play, h.playAll inline frame args]
  | .token arg | .pattern arg | .attempt arg => by
    rw [Stage.play, Stage.play, h.play inline frame arg]
  | .action name args => by
    rw [Stage.play, Stage.play, h.actionTarget?, h.factory, h.playAll inline frame args]
    simp only [h.callAction]
  | .actionNamed name names args => by
    rw [Stage.play, Stage.play, h.actionTarget?, h.factory, h.playAll inline frame args]
    simp only [h.callAction]
  | .call name args => by
    rw [Stage.play, Stage.play, h.target, h.name, h.playAll inline frame args]
  | .inherited name args => by
    rw [Stage.play, Stage.play, h.inherited, h.playAll inline frame args]

theorem Same.playAll (h : Same s s') (inline : Inline) (frame : Frame) :
    ∀ ts : List Term, playAll s' inline frame ts = playAll s inline frame ts
  | [] => by rw [Stage.playAll, Stage.playAll]
  | t :: rest => by
    rw [Stage.playAll, Stage.playAll, h.play inline frame t, h.playAll inline frame rest]

end

theorem Same.perform (h : Same s s') : ∀ depth, perform s' depth = perform s depth
  | 0 => rfl
  | depth + 1 => by
    funext owner script args
    rw [Stage.perform, Stage.perform, h.perform depth, h.playAll]

theorem Same.recordRules (h : Same s s') : ∀ names, recordRules s' names = recordRules s names
  | [] => rfl
  | name :: rest => by
    rw [Stage.recordRules, Stage.recordRules, h.name, h.id, h.limit, h.perform, h.play, h.recordRules rest]

end Stage

end PegScribe
