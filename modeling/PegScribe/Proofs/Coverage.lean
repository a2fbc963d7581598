import PegScribe.Proofs.Assertions
import PegScribe.Proofs.Printing

/-!
Coverage: the tokens that lowering cuts out account for all of the text but its white space.

A recorded grammar has terminals only in the rules of lexemes, between two patterns for white space
(`Grammar.Lexed`). So the lexemes of a derivation stand one after another in its stretch, with nothing but
white space around them (`Source.Spread`), and lowering cuts out just these, from left to right.
-/
namespace PegScribe
open Recorder

/-! ### Stretches of a source -/

theorem Ir.isBlank_append (a b : String) : isBlank (a ++ b) = (isBlank a && isBlank b) := by
  simp [isBlank]

namespace Source
variable {s : Source} {start mid stop : Int} {ts us : List Token}

/-- No white space stands at the start of the text. -/
def StartsSolid (text : String) : Prop := ∀ c, text.toList.head? = some c → Text.isSpace c = false

/-- The token is what stands at its place in the source, and does not start with white space. -/
structure Holds (s : Source) (t : Token) : Prop where
  le : t.start ≤ t.stop
  text : t.text = s.slice t.start t.stop
  line : t.line = (s.position t.start).1
  col : t.col = (s.position t.start).2
  solid : StartsSolid t.text

/-- The tokens stand one after another in a stretch of the source, each cut out of it, with nothing but
white space before, between and after them. -/
def Spread (s : Source) : (start : Int) → List Token → (stop : Int) → Prop
  | start, [], stop => start ≤ stop ∧ Ir.isBlank (s.slice start stop) = true
  | start, t :: rest, stop =>
    (start ≤ t.start ∧ Ir.isBlank (s.slice start t.start) = true) ∧ s.Holds t ∧
      Spread s t.stop rest stop

theorem Spread.le : ∀ {ts : List Token} {start : Int}, s.Spread start ts stop → start ≤ stop
  | [], _, h => h.1
  | _ :: _, _, h => Int.le_trans h.1.1 (Int.le_trans h.2.1.le h.2.2.le)

theorem blank_slice (hstart : 0 ≤ start) (hmid : start ≤ mid) (hstop : mid ≤ stop)
    (hlen : stop ≤ s.length) (h : Ir.isBlank (s.slice start mid) = true)
    (h' : Ir.isBlank (s.slice mid stop) = true) : Ir.isBlank (s.slice start stop) = true := by
  rw [← s.slice_append hstart hmid hstop hlen, Ir.isBlank_append, h, h']
  rfl

/-- White space before a stretch may be counted in. -/
theorem Spread.widen (h : s.Spread mid ts stop) (hstart : 0 ≤ start) (hmid : start ≤ mid)
    (hlen : stop ≤ s.length) (hblank : Ir.isBlank (s.slice start mid) = true) :
    s.Spread start ts stop := by
  cases ts with
  | nil => exact ⟨Int.le_trans hmid h.1, blank_slice hstart hmid h.1 hlen hblank h.2⟩
  | cons t rest =>
    obtain ⟨⟨hle, hgap⟩, ht, hrest⟩ := h
    have hinside : t.start ≤ s.length := Int.le_trans ht.le (Int.le_trans hrest.le hlen)
    exact ⟨⟨Int.le_trans hmid hle, blank_slice hstart hmid hle hinside hblank hgap⟩, ht, hrest⟩

theorem Spread.append : ∀ {ts : List Token} {start : Int}, 0 ≤ start → stop ≤ s.length →
    s.Spread start ts mid → s.Spread mid us stop → s.Spread start (ts ++ us) stop
  | [], _, hstart, hlen, h, h' => h'.widen hstart h.1 hlen h.2
  | _ :: _, _, hstart, hlen, ⟨hgap, ht, hrest⟩, h' =>
    ⟨hgap, ht, hrest.append (Int.le_trans hstart (Int.le_trans hgap.1 ht.le)) hlen h'⟩

/-- The text of a stretch is its tokens' texts with white space around them. -/
theorem Spread.written : ∀ {ts : List Token} {start : Int}, 0 ≤ start → stop ≤ s.length →
    s.Spread start ts stop → ∃ lead gaps, gaps.length = ts.length ∧
      (∀ gap ∈ lead :: gaps, Ir.isBlank gap = true) ∧
      s.slice start stop = lead ++ Ir.spaced (ts.map Token.text) gaps
  | [], start, _, _, h => ⟨s.slice start stop, [], rfl, by simpa using h.2, by simp [Ir.spaced]⟩
  | t :: rest, start, hstart, hlen, ⟨hgap, ht, hrest⟩ => by
    have hfrom : 0 ≤ t.start := Int.le_trans hstart hgap.1
    obtain ⟨lead, gaps, hcount, hblank, htext⟩ := hrest.written (Int.le_trans hfrom ht.le) hlen
    refine ⟨s.slice start t.start, lead :: gaps, congrArg Nat.succ hcount, ?_, ?_⟩
    · exact List.forall_mem_cons.mpr ⟨hgap.2, hblank⟩
    · rw [← s.slice_append hstart hgap.1 (Int.le_trans ht.le hrest.le) hlen,
        ← s.slice_append hfrom ht.le hrest.le hlen, htext, List.map_cons, Ir.spaced_cons, ht.text,
        String.append_assoc]

theorem slice_text (s : Source) : s.slice 0 s.length = s.text := by
  have hall : s.chars.toList.take s.length = s.chars.toList := List.take_of_length_le (Nat.le_refl _)
  rw [slice_inside s (Int.le_refl 0) (by omega) (Int.le_refl _), Int.sub_zero, Int.toNat_natCast]
  exact congrArg String.ofList hall

/-! ### White space -/

section Skipping
open Reading (skip)
variable {pos : Nat}

theorem le_skip : pos ≤ skip s pos := Nat.le_add_right ..

theorem blank_skip (h : skip s pos ≤ s.length) : Ir.isBlank (s.slice pos (skip s pos)) = true := by
  rw [s.slice_inside (by omega) (by have hle : pos ≤ skip s pos := le_skip; omega) (by omega)]
  unfold skip
  have hcount : ((↑(pos + ((s.chars.toList.drop pos).takeWhile Text.isSpace).length) : Int) -
      (pos : Int)).toNat = ((s.chars.toList.drop pos).takeWhile Text.isSpace).length := by omega
  rw [hcount, Ir.isBlank, String.toList_ofList, Int.toNat_natCast,
    ← List.prefix_iff_eq_take.mp (List.takeWhile_prefix _)]
  exact List.all_takeWhile

/-- What follows skipped white space starts with none. -/
theorem startsSolid_skip (hle : (skip s pos : Int) ≤ stop) (hstop : stop ≤ s.length) :
    StartsSolid (s.slice (skip s pos) stop) := by
  intro c hc
  rw [s.slice_inside (by omega) hle hstop, String.toList_ofList, Int.toNat_natCast] at hc
  have hrest : s.chars.toList.drop (skip s pos) = (s.chars.toList.drop pos).dropWhile Text.isSpace := by
    unfold skip
    rw [← List.drop_drop]
    nth_rewrite 2 [← List.takeWhile_append_dropWhile (p := Text.isSpace) (l := s.chars.toList.drop pos)]
    exact List.drop_left
  rw [hrest] at hc
  have hhead : ((s.chars.toList.drop pos).dropWhile Text.isSpace).head? = some c := by
    rw [List.head?_take] at hc
    split at hc
    · cases hc
    · exact hc
  have hnot := List.head?_dropWhile_not Text.isSpace (s.chars.toList.drop pos)
  rw [hhead] at hnot
  exact hnot

end Skipping
end Source

/-! ### Grammars with their terminals in lexemes -/

/-- No terminal stands in the expression but in the rules that it refers to. -/
inductive Expr.Leafless : Expr → Prop
  | call (key : RuleKey) : Leafless (.call key)
  | late (callee : Callee) : Leafless (.late callee)
  | rep (how : Repetition) {e : Expr} (h : Leafless e) : Leafless (.rep how e)
  | seq {es : List Expr} (h : ∀ e ∈ es, Leafless e) : Leafless (.seq es)
  | choice {es : List Expr} (h : ∀ e ∈ es, Leafless e) : Leafless (.choice es)

theorem Expr.Single.leafless {called : RuleKey → Prop} {e : Expr} (h : e.Single called) :
    e.Leafless := by
  induction h with
  | call _ => exact .call _
  | late callee => exact .late callee
  | choice _ ih => exact .choice ih

theorem leafless_operands {es : List Expr} (h : ∀ e ∈ es, e.Leafless) : (operands es).Leafless := by
  unfold operands
  split
  · exact h _ (List.mem_singleton_self _)
  · exact .seq h

/-- Terminals stand only in the rules of lexemes, with white space around them. -/
structure Grammar.Lexed [PatternLibrary] (g : Grammar) (model : Model) : Prop where
  lexeme : ∀ key body, g.rules.get? key = some body → model.isToken key = true →
    ∃ kind e, Lexical kind e ∧ body = padded e
  other : ∀ key body, g.rules.get? key = some body → model.isToken key = false → body.Leafless

theorem Grammar.lexed_of_shapes [PatternLibrary] {g : Grammar} {model : Model} {s : Stage}
    {called : RuleKey → Prop}
    (h : ∀ key body, g.rules.get? key = some body → RuleShape s model called key body) :
    g.Lexed model where
  lexeme := by
    intro key body hbody htoken
    unfold Model.isToken at htoken
    cases hkind : model.kinds.get? key with
    | none => rw [hkind] at htoken; cases htoken
    | some kind =>
      rw [hkind] at htoken
      rcases ((h key body hbody).kind kind hkind).inversion with
        ⟨e, hlexical, rfl⟩ | ⟨how, e, rfl, -, -⟩
      · exact ⟨kind, e, hlexical, rfl⟩
      · cases how <;> cases htoken
  other := by
    intro key body hbody htoken
    unfold Model.isToken at htoken
    have hshape := h key body hbody
    cases hkind : model.kinds.get? key with
    | some kind =>
      rw [hkind] at htoken
      rcases (hshape.kind kind hkind).inversion with ⟨e, hlexical, -⟩ | ⟨how, e, -, hsingle, rfl⟩
      · cases hlexical <;> cases htoken
      · exact .rep _ hsingle.leafless
    | none =>
      cases haction : model.actionRules.keyOf? key with
      | some m =>
        obtain ⟨n, -, es, -, rfl, hes⟩ := hshape.action m haction
        exact leafless_operands fun e he => (hes e he).leafless
      | none => exact (hshape.other hkind haction).leafless

/-! ### Tokens of trees -/

namespace ParseTree
variable (model : Model) (source : Source)

mutual

/-- The tokens of the lexemes in a tree, from left to right. -/
def tokens : ParseTree → List Token
  | .leaf _ _ => []
  | .node key start stop children =>
    if model.isToken key then [Lowering.lexeme source start stop children] else tokensAll children

/-- The tokens of the lexemes in trees, from left to right. -/
def tokensAll : List ParseTree → List Token
  | [] => []
  | t :: rest => tokens t ++ tokensAll rest

end

theorem tokensAll_append (ts us : List ParseTree) :
    tokensAll model source (ts ++ us) = tokensAll model source ts ++ tokensAll model source us := by
  induction ts with
  | nil => rfl
  | cons t ts ih => rw [List.cons_append, tokensAll, tokensAll, ih, List.append_assoc]

end ParseTree

namespace Packrat
variable {g : Grammar} {patterns : PatternTable} {source : Source} {model : Model} {e : Expr}
  {start mid stop : Int} {trees more : List ParseTree}

/-- The tokens of the trees account for the stretch from `start` to `stop`. -/
structure Accounts (model : Model) (source : Source) (start : Int) (trees : List ParseTree)
    (stop : Int) : Prop where
  spread : source.Spread start (ParseTree.tokensAll model source trees) stop
  full : ParseTree.tokensAll model source trees = [] → start = stop

theorem accounts_nil : Accounts model source start [] start :=
  ⟨⟨Int.le_refl start, by rw [source.slice_self]; rfl⟩, fun _ => rfl⟩

theorem Accounts.append (h : Accounts model source start trees mid)
    (h' : Accounts model source mid more stop) (hstart : 0 ≤ start) (hstop : stop ≤ source.length) :
    Accounts model source start (trees ++ more) stop := by
  refine ⟨?_, fun hnone => ?_⟩
  · rw [ParseTree.tokensAll_append]
    exact h.spread.append hstart hstop h'.spread
  · rw [ParseTree.tokensAll_append] at hnone
    obtain ⟨hnone, hnone'⟩ := List.append_eq_nil_iff.mp hnone
    exact (h.full hnone).trans (h'.full hnone')

variable [PatternLibrary]

/-- What is derived from an expression without terminals is nodes. -/
theorem Derives.leafless (hd : Derives g patterns source e start trees stop) (he : e.Leafless) :
    ∀ t ∈ trees, t.isLeaf = false := by
  induction hd with
  | literal _ _ => cases he
  | pattern _ _ => cases he
  | rule _ _ _ => exact List.forall_mem_singleton.mpr rfl
  | without => nofun
  | withOne _ ih => cases he with | rep _ he => exact ih he
  | manyNil => nofun
  | manyCons _ _ ih ih' =>
    have hmore := ih' he
    cases he with | rep _ he => exact List.forall_mem_append.mpr ⟨ih he, hmore⟩
  | someCons _ _ ih ih' =>
    cases he with | rep _ he => exact List.forall_mem_append.mpr ⟨ih he, ih' (.rep _ he)⟩
  | seqNil => nofun
  | seqCons _ _ ih ih' =>
    cases he with
    | seq he =>
      obtain ⟨he, hes⟩ := List.forall_mem_cons.mp he
      exact List.forall_mem_append.mpr ⟨ih he, ih' (.seq hes)⟩
  | choice hmem _ ih => cases he with | choice he => exact ih (he _ hmem)

/-- White space is matched up to where it ends. -/
theorem whitespace_derives (hws : patterns.meaning? whitespace = some PatternLibrary.blanks)
    (hd : Derives g patterns source (.pattern whitespace) start trees stop) :
    stop = Reading.skip source start.toNat ∧ trees = [.leaf start stop] := by
  cases hd with
  | pattern hc h =>
    cases hws.symm.trans hc
    rw [PatternLibrary.matchAt?_skip] at h
    cases h
    exact ⟨rfl, rfl⟩

/-- A lexeme's node is the white space before it, the lexeme and the white space after it. -/
theorem padded_derives {kind : RuleKind} (hws : patterns.meaning? whitespace = some PatternLibrary.blanks)
    (h : Lexical kind e) (hd : Derives g patterns source (padded e) start trees stop) :
    ∃ from_ to_, from_ = (Reading.skip source start.toNat : Int) ∧
      stop = (Reading.skip source to_.toNat : Int) ∧
      Derives g patterns source e from_ [.leaf from_ to_] to_ ∧
      trees = [.leaf start from_, .leaf from_ to_, .leaf to_ stop] := by
  unfold padded at hd
  cases hd with
  | seqCons hbefore hd =>
    obtain ⟨hfrom, rfl⟩ := whitespace_derives hws hbefore
    cases hd with
    | seqCons he hd =>
      cases hd with
      | seqCons hafter hd =>
        obtain ⟨hto, rfl⟩ := whitespace_derives hws hafter
        cases hd
        have hleaf := he
        cases h <;> cases he <;> exact ⟨_, _, hfrom, hto, hleaf, rfl⟩

/-- The token of a lexeme accounts for its node. -/
theorem accounts_lexeme {kind : RuleKind} {key : RuleKey}
    (hws : patterns.meaning? whitespace = some PatternLibrary.blanks) (h : Lexical kind e)
    (hd : Derives g patterns source (padded e) start trees stop) (hstart : Inside source.chars start)
    (htoken : model.isToken key = true) :
    Accounts model source start [.node key start stop trees] stop := by
  obtain ⟨-, hstop⟩ := (hd.onward hstart).bounds hstart.2
  have htiles := hd.tiles hstart
  obtain ⟨from_, to_, hfrom, hto, -, rfl⟩ := padded_derives hws h hd
  obtain ⟨-, hle, -, hle', -, hle'', -⟩ := htiles
  simp only [ParseTree.start, ParseTree.stop] at hle hle' hle''
  have hcut : ParseTree.tokensAll model source
      [.node key start stop [.leaf start from_, .leaf from_ to_, .leaf to_ stop]] =
        [source.token from_ to_] := by
    simp [ParseTree.tokensAll, ParseTree.tokens, htoken, Lowering.lexeme, ParseTree.start,
      ParseTree.stop]
  have hblank : ∀ {a b : Int}, 0 ≤ a → b ≤ source.length → b = Reading.skip source a.toNat →
      Ir.isBlank (source.slice a b) = true := by
    intro a b ha hb heq
    have hgap : Ir.isBlank (source.slice a.toNat (Reading.skip source a.toNat)) = true :=
      source.blank_skip (by omega)
    rwa [← heq, Int.toNat_of_nonneg ha] at hgap
  have hsize : stop ≤ source.length := hstop
  have hzero := hstart.1
  have hbefore := hblank hzero (b := from_) (by omega) hfrom
  have hafter := hblank (a := to_) (by omega) hsize hto
  have hsolid : Source.StartsSolid (source.slice (Reading.skip source start.toNat) to_) :=
    source.startsSolid_skip (by omega) (by omega)
  rw [← hfrom] at hsolid
  refine ⟨?_, fun hnone => absurd (hcut.symm.trans hnone) (List.cons_ne_nil _ _)⟩
  rw [hcut]
  exact ⟨⟨hle, hbefore⟩, ⟨hle', rfl, rfl, rfl, hsolid⟩, hle'', hafter⟩

/-- The tokens of a derivation account for its stretch. -/
theorem Derives.accounts (hg : g.Lexed model)
    (hws : patterns.meaning? whitespace = some PatternLibrary.blanks)
    (hd : Derives g patterns source e start trees stop) (he : e.Leafless)
    (hstart : Inside source.chars start) : Accounts model source start trees stop := by
  have hafter : ∀ {e₁ e₂ : Expr} {start mid stop : Int} {trees more : List ParseTree},
      Derives g patterns source e₁ start trees mid → Derives g patterns source e₂ mid more stop →
      Inside source.chars start → Accounts model source start trees mid →
      (Inside source.chars mid → Accounts model source mid more stop) →
      Accounts model source start (trees ++ more) stop := by
    intro e₁ e₂ start mid stop trees more h h' hstart ih ih'
    have hmid := (h.onward hstart).inside hstart
    exact ih.append (ih' hmid) hstart.1 ((h'.onward hmid).bounds hmid.2).2
  induction hd with
  | literal _ _ => cases he
  | pattern _ _ => cases he
  | @rule key body start children stop hb hd ih =>
    cases htoken : model.isToken key with
    | true =>
      obtain ⟨kind, e, hlexical, rfl⟩ := hg.lexeme key body hb htoken
      exact accounts_lexeme hws hlexical hd hstart htoken
    | false =>
      have hsame : ParseTree.tokensAll model source [.node key start stop children] =
          ParseTree.tokensAll model source children := by
        simp [ParseTree.tokensAll, ParseTree.tokens, htoken]
      have hbody := ih (hg.other key body hb htoken) hstart
      exact ⟨hsame ▸ hbody.spread, hsame ▸ hbody.full⟩
  | without => exact accounts_nil
  | withOne _ ih => cases he with | rep _ he => exact ih he hstart
  | manyNil => exact accounts_nil
  | manyCons h h' ih ih' =>
    have hmore := ih' he
    cases he with | rep _ he => exact hafter h h' hstart (ih he hstart) hmore
  | someCons h h' ih ih' =>
    cases he with | rep _ he => exact hafter h h' hstart (ih he hstart) (ih' (.rep _ he))
  | seqNil => exact accounts_nil
  | seqCons h h' ih ih' =>
    cases he with
    | seq he =>
      obtain ⟨he, hes⟩ := List.forall_mem_cons.mp he
      exact hafter h h' hstart (ih he hstart) (ih' (.seq hes))
  | choice hmem _ ih => cases he with | choice he => exact ih (he _ hmem) hstart

end Packrat

/-! ### What lowering cuts out -/

/-- The tokens that were cut out, in the order of the deeds. -/
def Deed.cuts (deeds : List Deed) : List Token :=
  deeds.filterMap fun
    | .cut t => some t
    | .called _ _ => none

namespace Lowering
open Keeping
variable {l : Lowering} {source : Source} {α β : Type} {ts us : List Token}

/-- The computation cuts the given tokens out in turn, or as many of them as it gets to. -/
def Cuts (ts : List Token) (x : Deeds α) : Prop :=
  ∀ ⦃deeds result deeds'⦄, x deeds = (result, deeds') → ∃ done, done <+: ts ∧
    Deed.cuts deeds' = done.reverse ++ Deed.cuts deeds ∧ ∀ a, result = .ok a → done = ts

theorem cuts_pure (a : α) : Cuts [] (pure a : Deeds α) := by
  intro deeds result deeds' h
  cases h
  exact ⟨[], List.prefix_rfl, rfl, fun _ _ => rfl⟩

theorem cuts_throw (ts : List Token) (f : Fault) : Cuts ts (throw f : Deeds α) := by
  intro deeds result deeds' h
  cases h
  exact ⟨[], List.nil_prefix, rfl, nofun⟩

theorem cuts_cut (t : Token) : Cuts [t] (cut t) := by
  intro deeds result deeds' h
  cases h
  exact ⟨[t], List.prefix_rfl, rfl, fun _ _ => rfl⟩

theorem Cuts.bind {x : Deeds α} {f : α → Deeds β} (hx : Cuts ts x) (hf : ∀ a, Cuts us (f a)) :
    Cuts (ts ++ us) (x >>= f) := by
  intro deeds result deeds' h
  rcases hrun : x deeds with ⟨e | a, deeds₁⟩
  · rw [bind_of_error hrun] at h
    cases h
    obtain ⟨done, hpre, hcuts, -⟩ := hx hrun
    exact ⟨done, hpre.trans (List.prefix_append ..), hcuts, nofun⟩
  · rw [bind_of_ok hrun] at h
    obtain ⟨done, -, hcuts, hall⟩ := hx hrun
    obtain ⟨more, hpre, hcuts', hall'⟩ := hf a h
    rw [hall a rfl] at hcuts
    refine ⟨ts ++ more, (List.prefix_append_right_inj ts).mpr hpre, ?_, fun b hb => ?_⟩
    · rw [hcuts', hcuts, List.reverse_append, List.append_assoc]
    · rw [hall' b hb]

/-- Nothing more is cut out after the given tokens. -/
theorem Cuts.bind_idle {x : Deeds α} {f : α → Deeds β} (hx : Cuts ts x) (hf : ∀ a, Cuts [] (f a)) :
    Cuts ts (x >>= f) := by
  have hboth := hx.bind hf
  rwa [List.append_nil] at hboth

theorem cuts_call (m : Method) (args : List Value) : Cuts [] (l.call m args) := by
  intro deeds result deeds' h
  unfold call at h
  rw [bind_of_ok (show (modify (.called m args :: ·) : Deeds Unit) deeds =
    (.ok (), .called m args :: deeds) from rfl)] at h
  cases hact : l.act m args <;> rw [hact] at h <;> cases h <;>
    exact ⟨[], List.prefix_rfl, rfl, fun _ _ => rfl⟩

theorem cuts_combine (key : RuleKey) (values : List Value) : Cuts [] (l.combine key values) := by
  unfold combine
  split
  · split
    · exact cuts_pure _
    · exact cuts_throw ..
  · split
    · exact cuts_call ..
    · exact cuts_throw ..

theorem cuts_each {visit : ParseTree → Deeds Value} : ∀ {trees : List ParseTree},
    (∀ t ∈ trees, Cuts (t.tokens l.model source) (visit t)) →
    Cuts (ParseTree.tokensAll l.model source trees) (each visit trees)
  | [], _ => cuts_pure _
  | t :: _, h =>
    (h t (List.mem_cons_self ..)).bind fun _ =>
      (cuts_each fun t ht => h t (List.mem_cons_of_mem _ ht)).bind_idle fun _ => cuts_pure _

/-- Below a node that is no lexeme stand nodes. -/
def Leafless (l : Lowering) (tree : ParseTree) : Prop :=
  ∀ key start stop children, .node key start stop children ∈ tree.subtrees →
    l.model.isToken key = false → ∀ t ∈ children, t.isLeaf = false

/-- Lowering cuts the tokens of a tree out, from left to right. -/
theorem cuts_lower : ∀ (d : Nat) {tree : ParseTree}, tree.isLeaf = false → l.Leafless tree →
    Cuts (tree.tokens l.model source) (l.lower source d tree)
  | 0, _, _, _ => cuts_throw ..
  | d + 1, .leaf _ _, hnode, _ => by cases hnode
  | d + 1, .node key start stop children, _, h => by
    rw [lower_node]
    have hcut : l.model.isToken key = true →
        Cuts (ParseTree.tokens l.model source (.node key start stop children))
          (cut (lexeme source start stop children)) := by
      intro htoken
      rw [ParseTree.tokens, if_pos htoken]
      exact cuts_cut _
    have hchild : l.model.isToken key = false →
        ∀ t ∈ children, t.isLeaf = false ∧ Cuts (t.tokens l.model source) (l.lower source d t) := by
      intro htoken t ht
      have hnode := h key start stop children (by simp [ParseTree.subtrees]) htoken t ht
      refine ⟨hnode, cuts_lower d hnode fun k a b cs hk => h k a b cs ?_⟩
      exact List.mem_cons_of_mem _ (subtrees_of_child ht _ hk)
    have htokens : l.model.isToken key = false →
        ParseTree.tokens l.model source (.node key start stop children) =
          ParseTree.tokensAll l.model source children := by
      intro htoken
      rw [ParseTree.tokens, if_neg (by simp [htoken])]
    have hcombine : l.model.isToken key = false →
        Cuts (ParseTree.tokens l.model source (.node key start stop children))
          (each (l.lower source d) (ParseTree.semantic children) >>= l.combine key) := by
      intro htoken
      rw [htokens htoken, ParseTree.semantic_nodes fun t ht => (hchild htoken t ht).1]
      exact (cuts_each fun t ht => (hchild htoken t ht).2).bind_idle fun vs => cuts_combine key vs
    have hlist : l.model.isToken key = false →
        Cuts (ParseTree.tokens l.model source (.node key start stop children))
          (each (l.lower source d) children >>= fun vs => return Value.list vs) := by
      intro htoken
      rw [htokens htoken]
      exact (cuts_each fun t ht => (hchild htoken t ht).2).bind_idle fun vs => cuts_pure _
    cases hkind : l.model.kinds.get? key with
    | none => exact hcombine (by rw [Model.isToken, hkind]; rfl)
    | some kind =>
      have htoken : l.model.isToken key = kind.isToken := by rw [Model.isToken, hkind]; rfl
      cases kind with
      | token => exact hcut htoken
      | pattern => exact hcut htoken
      | optional =>
        rw [htokens htoken]
        rcases children with _ | ⟨child, _ | ⟨_, _⟩⟩
        · exact cuts_pure _
        · rw [ParseTree.tokensAll, ParseTree.tokensAll, List.append_nil]
          exact (hchild htoken child (List.mem_singleton_self _)).2
        · exact cuts_throw ..
      | oneOrMore => exact hlist htoken
      | zeroOrMore => exact hlist htoken
      | other name => exact hcombine htoken

end Lowering

/-! ### Parsers -/

namespace Parser
open Reading
variable {parts : Parts} {parser : Parser} {source : Source} {tree : ParseTree} {depth : Nat}

/-- A recorded grammar has its terminals in lexemes, and its pattern for white space takes all of it. -/
theorem lexed_of_build [PatternLibrary] (hpush : parts.stage.PushesNothing)
    (hkeys : parts.stage.GivesOwnKeys) (hregistry : parts.registry = {})
    (hbuild : (build parts).1 = .ok parser) :
    parser.program.grammar.Lexed parser.model ∧
      parser.program.patterns.meaning? whitespace = some PatternLibrary.blanks := by
  obtain ⟨r, root, hb⟩ := built_of_build hbuild
  have hr := shaped_of_built hb hpush hkeys hregistry
  refine ⟨?_, ?_⟩
  · rw [show parser.model = r.model from congrArg Lowering.model hb.lowering]
    exact Grammar.lexed_of_shapes fun key body => shape_of_built hb hr
  · rw [hb.linked.patterns, PatternLibrary.compile_whitespace]
    rfl

/-- The tree of a run of a grammar with its terminals in lexemes: its tokens account for what was matched,
and lowering cuts them out. -/
theorem accounts_of_run [PatternLibrary] (hlexed : parser.program.grammar.Lexed parser.model)
    (hws : parser.program.patterns.meaning? whitespace = some PatternLibrary.blanks) {consumed : Int}
    (hrun : parser.program.runWithin depth source = .ok (.matched tree consumed)) :
    Packrat.Accounts parser.model source 0 [tree] consumed ∧ tree.isLeaf = false ∧
      parser.lowering.Leafless tree := by
  have hlossless := Program.lossless_of_matched hrun
  obtain ⟨children, rfl⟩ := hlossless.whole
  obtain ⟨body, hbody, hd⟩ := hlossless.derived parser.program.start 0 consumed children
    (by simp [ParseTree.subtrees])
  have hin : Packrat.Inside source.chars 0 := ⟨Int.le_refl 0, by omega⟩
  refine ⟨(Packrat.Derives.rule hbody hd).accounts hlexed hws (.call _) hin, rfl, ?_⟩
  intro key start stop cs hmem htoken
  obtain ⟨body, hbody, hd⟩ := hlossless.derived key start stop cs hmem
  exact hd.leafless (hlexed.other key body hbody htoken)

/-- Lowering cuts out the tokens of the tree in their order, and all of them if it comes to a value. -/
theorem cuts_of_create (hnode : tree.isLeaf = false) (hleafless : parser.lowering.Leafless tree)
    {limit : Nat} {value : Except Fault Value} {deeds : List Deed}
    (h : parser.lowering.createWithin limit source tree = (value, deeds)) :
    Deed.cuts deeds <+: tree.tokens parser.model source ∧
      ∀ v, value = .ok v → Deed.cuts deeds = tree.tokens parser.model source := by
  unfold Lowering.createWithin at h
  rcases hlower : parser.lowering.lower source limit tree [] with ⟨result, done⟩
  rw [hlower] at h
  cases h
  obtain ⟨cut, hpre, hcuts, hok⟩ := Lowering.cuts_lower limit hnode hleafless hlower
  have hforward : Deed.cuts done.reverse = cut := by
    unfold Deed.cuts at hcuts ⊢
    rw [List.filterMap_reverse, hcuts, List.filterMap_nil, List.append_nil, List.reverse_reverse]
  rw [hforward]
  exact ⟨hpre, hok⟩

/-- Lowering a tree of fitting nodes comes to a value with every limit on nesting from some limit on, or a
factory method raises. -/
theorem create_of_fits {takes : Method → Nat → Prop} (hfits : parser.lowering.TreeFits takes tree)
    (source : Source) :
    ∃ d₀, ∀ limit ≥ d₀, ∃ value deeds, parser.lowering.createWithin limit source tree = (value, deeds) ∧
      ((∃ v, value = .ok v) ∨ ∃ f, value = .error f ∧ parser.RaisedLast deeds f) := by
  obtain ⟨n, hn⟩ := tree.exists_within
  refine ⟨n, fun limit hlimit => ?_⟩
  rcases hcreate : parser.lowering.createWithin limit source tree with ⟨value, deeds⟩
  refine ⟨value, deeds, rfl, ?_⟩
  cases value with
  | ok v => exact .inl ⟨v, rfl⟩
  | error f =>
    refine .inr ⟨f, rfl, ((proper_create hfits hcreate).2 f rfl).resolve_left ?_⟩
    rintro ⟨-, hdeep⟩
    rw [ParseTree.within_mono hlimit hn] at hdeep
    cases hdeep

/-- The tokens account for all of the text but its white space, as long as the bodies of the grammar push
nothing by hand. For a text that is matched entirely there are tokens that stand in it one after another,
each with its text, line and column as they are in the source, none starting with white space; the text is
theirs with gaps of white space before, between and after them; and there are none only if the text is
empty. Lowering cuts them out in this order, all of them unless a fault breaks it off; and where the root
is a rule method, nothing but a factory method does so from some limit on nesting on. -/
theorem tokens_account_for_text [PatternLibrary] (parts : Parts) (parser : Parser) (depth : Nat)
    (source : Source) (tree : ParseTree) (hpush : parts.stage.PushesNothing)
    (hkeys : parts.stage.GivesOwnKeys) (hregistry : parts.registry = {})
    (hbuild : (build parts).1 = .ok parser)
    (hrun : parser.program.runWithin depth source = .ok (.matched tree source.length)) :
    ∃ ts : List Token, source.Spread 0 ts source.length ∧
      (∃ lead gaps, gaps.length = ts.length ∧ (∀ gap ∈ lead :: gaps, Ir.isBlank gap = true) ∧
        source.text = lead ++ Ir.spaced (ts.map Token.text) gaps) ∧
      (ts = [] → source.text = "") ∧
      (∀ limit value deeds, parser.lowering.createWithin limit source tree = (value, deeds) →
        Deed.cuts deeds <+: ts ∧ ∀ v, value = .ok v → Deed.cuts deeds = ts) ∧
      ∀ method, rootMethod? parts.grammar parts.root = some method → ∃ d₀, ∀ limit ≥ d₀, ∃ value deeds,
        parser.lowering.createWithin limit source tree = (value, deeds) ∧
        (((∃ v, value = .ok v) ∧ Deed.cuts deeds = ts) ∨
          ∃ f, value = .error f ∧ parser.RaisedLast deeds f) := by
  obtain ⟨hlexed, hws⟩ := lexed_of_build hpush hkeys hregistry hbuild
  obtain ⟨haccounts, hnode, hleafless⟩ := accounts_of_run hlexed hws hrun
  have hall : ParseTree.tokensAll parser.model source [tree] = tree.tokens parser.model source := by
    rw [ParseTree.tokensAll, ParseTree.tokensAll, List.append_nil]
  have hspread := haccounts.spread
  rw [hall] at hspread
  refine ⟨tree.tokens parser.model source, hspread, ?_, fun hnone => ?_,
    fun limit value deeds hcreate => cuts_of_create hnode hleafless hcreate, fun method hroot => ?_⟩
  · rw [← source.slice_text]
    exact hspread.written (Int.le_refl 0) (Int.le_refl _)
  · rw [← source.slice_text, ← haccounts.full (hall.trans hnone), source.slice_self]
  · obtain ⟨r, root, hb⟩ := built_of_build hbuild
    have hfits := treeFits_of_run hb (shaped_of_built hb hpush hkeys hregistry) hroot hrun
    obtain ⟨d₀, hd₀⟩ := create_of_fits hfits source
    refine ⟨d₀, fun limit hlimit => ?_⟩
    obtain ⟨value, deeds, hcreate, hends⟩ := hd₀ limit hlimit
    refine ⟨value, deeds, hcreate, hends.imp_left fun ⟨v, hv⟩ => ⟨⟨v, hv⟩, ?_⟩⟩
    exact (cuts_of_create hnode hleafless hcreate).2 v hv

theorem tokens_account_for_text_nested : ∃ parser tree depth ts deeds, (build nested).1 = .ok parser ∧
    parser.program.runWithin depth (.ofString " (ab ) ") = .ok (.matched tree 7) ∧
    (Source.ofString " (ab ) ").Spread 0 ts 7 ∧ ts ≠ [] ∧
    parser.lowering.createWithin depth (.ofString " (ab ) ") tree = (.ok (.list [.text "ab"]), deeds) ∧
    Deed.cuts deeds = ts ∧
    ∃ d₀, ∀ limit ≥ d₀, ∃ value deeds,
      parser.lowering.createWithin limit (.ofString " (ab ) ") tree = (value, deeds) ∧
      (((∃ v, value = .ok v) ∧ Deed.cuts deeds = ts) ∨
        ∃ f, value = .error f ∧ parser.RaisedLast deeds f) := by
  obtain ⟨parser, hbuild⟩ := nested_builds
  have hread : read nested 12 (.ofString " (ab ) ") = some (some (7, .ok (.list [.text "ab"]))) := by
    with_unfolding_all rfl
  obtain ⟨⟨depth, hdepth⟩, -⟩ := agrees_of_meets (meets_of_read nested_declarative hbuild hread)
  have hvalue : (parser.parseWithin depth (.ofString " (ab ) ")).1 = .ok (.list [.text "ab"]) :=
    hdepth depth (Nat.le_refl _)
  obtain ⟨tree, hrun⟩ := matched_of_parseWithin hvalue
  obtain ⟨ts, hspread, -, hempty, hcuts, htotal⟩ := tokens_account_for_text nested parser depth _ tree
    (by decide +kernel) nested_keys rfl hbuild hrun
  rw [parseWithin_of_matched hrun] at hvalue
  refine ⟨parser, tree, depth, ts, _, hbuild, hrun, hspread, fun hnone => ?_, Prod.ext hvalue rfl, ?_,
    htotal _ nested_root⟩
  · exact absurd (hempty hnone) (by decide +kernel)
  · exact (hcuts depth _ _ rfl).2 _ hvalue

end Parser
end PegScribe
