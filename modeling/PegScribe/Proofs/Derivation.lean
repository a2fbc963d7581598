import PegScribe.Program
import PegScribe.Proofs.Tries

/-!
Derivations: how the trees of a match are made up of the parts of an expression.

`Derives g patterns source e start trees stop` reads a row of trees as a derivation of `e`. Unlike a
run it takes no alternative before another and ends a repetition anywhere. What follows from it alone:
trees abut and fill the stretch from `start` to `stop` (`Derives.tiles`), every rule in them is derived
in turn (`Derives.of_node`), and their leaves spell the text of the stretch (`Derives.spells`).
-/
namespace PegScribe

namespace ParseTree

mutual

/-- The leaves of a tree, from left to right. -/
def leaves : ParseTree → List ParseTree
  | .leaf start stop => [.leaf start stop]
  | .node _ _ _ children => leavesAll children

/-- The leaves of trees, from left to right. -/
def leavesAll : List ParseTree → List ParseTree
  | [] => []
  | t :: rest => leaves t ++ leavesAll rest

end

mutual

/-- A tree and all trees inside it. -/
def subtrees : ParseTree → List ParseTree
  | .leaf start stop => [.leaf start stop]
  | .node key start stop children => .node key start stop children :: subtreesAll children

/-- Trees and all trees inside them. -/
def subtreesAll : List ParseTree → List ParseTree
  | [] => []
  | t :: rest => subtrees t ++ subtreesAll rest

end

/-- Each tree starts where the one before it stops, and together they fill a stretch. -/
def Tile : Int → List ParseTree → Int → Prop
  | start, [], stop => start = stop
  | start, t :: rest, stop => t.start = start ∧ t.start ≤ t.stop ∧ Tile t.stop rest stop

theorem leavesAll_append (ts us : List ParseTree) :
    leavesAll (ts ++ us) = leavesAll ts ++ leavesAll us := by
  induction ts with
  | nil => rfl
  | cons t ts ih => rw [List.cons_append, leavesAll, leavesAll, ih, List.append_assoc]

theorem subtreesAll_append (ts us : List ParseTree) :
    subtreesAll (ts ++ us) = subtreesAll ts ++ subtreesAll us := by
  induction ts with
  | nil => rfl
  | cons t ts ih => rw [List.cons_append, subtreesAll, subtreesAll, ih, List.append_assoc]

theorem Tile.append : ∀ {ts us : List ParseTree} {start mid stop : Int}, Tile start ts mid →
    Tile mid us stop → Tile start (ts ++ us) stop
  | [], _, _, _, _, h, h' => by cases h; exact h'
  | _ :: _, _, _, _, _, h, h' => ⟨h.1, h.2.1, h.2.2.append h'⟩

end ParseTree

namespace Source

theorem slice_inside (s : Source) {a b : Int} (ha : 0 ≤ a) (hab : a ≤ b) (hb : b ≤ s.length) :
    s.slice a b = String.ofList ((s.chars.toList.drop a.toNat).take (b - a).toNat) := by
  have hclamp : ∀ {i : Int}, 0 ≤ i → i ≤ s.length → s.clamp i = i.toNat := by
    intro i h0 hi
    unfold clamp
    rw [if_neg (by omega)]
    omega
  unfold slice
  rw [hclamp ha (by omega), hclamp (by omega) hb, Array.toList_extract, List.extract_eq_take_drop]
  congr 2
  omega

/-- Two stretches that abut are one. -/
theorem slice_append (s : Source) {a b c : Int} (ha : 0 ≤ a) (hab : a ≤ b) (hbc : b ≤ c)
    (hc : c ≤ s.length) : s.slice a b ++ s.slice b c = s.slice a c := by
  rw [slice_inside s ha hab (by omega), slice_inside s (by omega) hbc hc,
    slice_inside s ha (by omega) hc, ← String.ofList_append]
  have hdrop : s.chars.toList.drop b.toNat =
      (s.chars.toList.drop a.toNat).drop (b - a).toNat := by
    rw [List.drop_drop]
    congr 1
    omega
  have hlen : (c - a).toNat = (b - a).toNat + (c - b).toNat := by omega
  rw [hdrop, hlen, List.take_add]

theorem slice_self (s : Source) (a : Int) : s.slice a a = "" := by
  simp [slice]

theorem length_slice_le (s : Source) {a b : Int} (ha : 0 ≤ a) (ha' : a ≤ s.length) :
    ((s.slice a b).length : Int) ≤ s.length - a := by
  unfold slice
  rw [String.length_ofList, Array.length_toList, Array.size_extract]
  have hclamp : (s.clamp a : Int) = a := by
    unfold clamp
    rw [if_neg (by omega)]
    omega
  have hsize : (s.chars.size : Int) = s.length := rfl
  omega

end Source

namespace Packrat

/-- The text that the leaves of trees cover, from left to right. -/
def leafText (source : Source) (trees : List ParseTree) : String :=
  String.join ((ParseTree.leavesAll trees).map fun leaf => source.slice leaf.start leaf.stop)

theorem leafText_append (source : Source) (trees more : List ParseTree) :
    leafText source (trees ++ more) = leafText source trees ++ leafText source more := by
  simp [leafText, ParseTree.leavesAll_append]

theorem leafText_leaf (source : Source) (start stop : Int) :
    leafText source [.leaf start stop] = source.slice start stop := by
  simp [leafText, ParseTree.leavesAll, ParseTree.leaves, ParseTree.start, ParseTree.stop]

variable [PatternLibrary]

/-- The trees, from `start` to `stop`, are made up as the expression says. -/
inductive Derives (g : Grammar) (patterns : PatternTable) (source : Source) :
    Expr → Int → List ParseTree → Int → Prop
  | literal {t start stop} (h : source.slice start stop = t) (hstop : stop = start + t.length) :
    Derives g patterns source (.literal t) start [.leaf start stop] stop
  | pattern {notation_ regex start} {stop : Nat} (hc : patterns.meaning? notation_ = some regex)
    (h : regex.matchAt? source.chars start.toNat = some stop) :
    Derives g patterns source (.pattern notation_) start [.leaf start stop] stop
  | rule {key body start children stop} (hb : g.rules.get? key = some body)
    (h : Derives g patterns source body start children stop) :
    Derives g patterns source (.call key) start [.node key start stop children] stop
  | without {e start} : Derives g patterns source (.rep .optional e) start [] start
  | withOne {e start trees stop} (h : Derives g patterns source e start trees stop) :
    Derives g patterns source (.rep .optional e) start trees stop
  | manyNil {e start} : Derives g patterns source (.rep .zeroOrMore e) start [] start
  | manyCons {e start trees mid more stop} (h : Derives g patterns source e start trees mid)
    (hrest : Derives g patterns source (.rep .zeroOrMore e) mid more stop) :
    Derives g patterns source (.rep .zeroOrMore e) start (trees ++ more) stop
  | someCons {e start trees mid more stop} (h : Derives g patterns source e start trees mid)
    (hrest : Derives g patterns source (.rep .zeroOrMore e) mid more stop) :
    Derives g patterns source (.rep .oneOrMore e) start (trees ++ more) stop
  | seqNil {start} : Derives g patterns source (.seq []) start [] start
  | seqCons {e es start trees mid more stop} (h : Derives g patterns source e start trees mid)
    (hrest : Derives g patterns source (.seq es) mid more stop) :
    Derives g patterns source (.seq (e :: es)) start (trees ++ more) stop
  | choice {e alts start trees stop} (he : e ∈ alts)
    (h : Derives g patterns source e start trees stop) :
    Derives g patterns source (.choice alts) start trees stop

variable {g : Grammar} {patterns : PatternTable} {source : Source} {e : Expr} {start stop : Int}
  {trees : List ParseTree}

theorem Derives.onward (h : Derives g patterns source e start trees stop)
    (hstart : Inside source.chars start) : Onward source.chars start stop := by
  induction h with
  | @literal t start stop h hstop =>
    have hlen := source.length_slice_le (b := stop) hstart.1 hstart.2
    rw [h] at hlen
    have hsize : (source.length : Int) = source.chars.size := rfl
    exact hstart.onward (by omega) (by omega)
  | @pattern notation_ regex start stop hc h =>
    obtain ⟨hle, hstop⟩ := Pattern.inside _ (by have := hstart.2; omega) h
    exact hstart.onward (by have := hstart.1; omega) (by omega)
  | rule _ _ ih => exact ih hstart
  | without => exact .refl _ _
  | withOne _ ih => exact ih hstart
  | manyNil => exact .refl _ _
  | manyCons _ _ ih ih' => exact (ih hstart).trans (ih' ((ih hstart).inside hstart))
  | someCons _ _ ih ih' => exact (ih hstart).trans (ih' ((ih hstart).inside hstart))
  | seqNil => exact .refl _ _
  | seqCons _ _ ih ih' => exact (ih hstart).trans (ih' ((ih hstart).inside hstart))
  | choice _ _ ih => exact ih hstart

/-- The trees of a derivation abut and fill its stretch. -/
theorem Derives.tiles (h : Derives g patterns source e start trees stop)
    (hstart : Inside source.chars start) : ParseTree.Tile start trees stop := by
  induction h with
  | literal h hstop =>
    have hd : Derives g patterns source _ _ _ _ := .literal h hstop
    exact ⟨rfl, ((hd.onward hstart).bounds hstart.2).1, rfl⟩
  | pattern hc h =>
    have hd : Derives g patterns source _ _ _ _ := .pattern hc h
    exact ⟨rfl, ((hd.onward hstart).bounds hstart.2).1, rfl⟩
  | rule _ h _ => exact ⟨rfl, ((h.onward hstart).bounds hstart.2).1, rfl⟩
  | without => exact rfl
  | withOne _ ih => exact ih hstart
  | manyNil => exact rfl
  | manyCons h _ ih ih' => exact (ih hstart).append (ih' ((h.onward hstart).inside hstart))
  | someCons h _ ih ih' => exact (ih hstart).append (ih' ((h.onward hstart).inside hstart))
  | seqNil => exact rfl
  | seqCons h _ ih ih' => exact (ih hstart).append (ih' ((h.onward hstart).inside hstart))
  | choice _ _ ih => exact ih hstart

theorem leafText_step {e' : Expr} {mid : Int} {more : List ParseTree}
    (h : Derives g patterns source e start trees mid)
    (hrest : Derives g patterns source e' mid more stop) (hstart : Inside source.chars start)
    (ih : leafText source trees = source.slice start mid)
    (ih' : Inside source.chars mid → leafText source more = source.slice mid stop) :
    leafText source (trees ++ more) = source.slice start stop := by
  have hon := h.onward hstart
  have hmid := hon.inside hstart
  obtain ⟨hle, -⟩ := hon.bounds hstart.2
  obtain ⟨hle', hstop⟩ := (hrest.onward hmid).bounds hmid.2
  rw [leafText_append, ih, ih' hmid, source.slice_append hstart.1 hle hle' hstop]

/-- The leaves of a derivation spell the text of its stretch. -/
theorem Derives.spells (h : Derives g patterns source e start trees stop)
    (hstart : Inside source.chars start) : leafText source trees = source.slice start stop := by
  induction h with
  | literal _ _ => exact leafText_leaf _ _ _
  | pattern _ _ => exact leafText_leaf _ _ _
  | rule _ _ ih =>
    rw [← ih hstart]
    simp [leafText, ParseTree.leavesAll, ParseTree.leaves]
  | without => rw [source.slice_self]; rfl
  | withOne _ ih => exact ih hstart
  | manyNil => rw [source.slice_self]; rfl
  | manyCons h hrest ih ih' => exact leafText_step h hrest hstart (ih hstart) ih'
  | someCons h hrest ih ih' => exact leafText_step h hrest hstart (ih hstart) ih'
  | seqNil => rw [source.slice_self]; rfl
  | seqCons h hrest ih ih' => exact leafText_step h hrest hstart (ih hstart) ih'
  | choice _ _ ih => exact ih hstart

/-- A rule's node inside a derivation has a derivation of the rule's body below it. -/
structure NodeDerived (g : Grammar) (patterns : PatternTable) (source : Source) (key : RuleKey)
    (start : Int) (children : List ParseTree) (stop : Int) : Prop where
  inside : Inside source.chars start
  derived : ∃ body, g.rules.get? key = some body ∧
    Derives g patterns source body start children stop

theorem Derives.of_node (h : Derives g patterns source e start trees stop)
    (hstart : Inside source.chars start) {key : RuleKey} {from_ to_ : Int}
    {children : List ParseTree}
    (hmem : .node key from_ to_ children ∈ ParseTree.subtreesAll trees) :
    NodeDerived g patterns source key from_ children to_ := by
  induction h with
  | literal _ _ => simp [ParseTree.subtreesAll, ParseTree.subtrees] at hmem
  | pattern _ _ => simp [ParseTree.subtreesAll, ParseTree.subtrees] at hmem
  | rule hb h ih =>
    simp only [ParseTree.subtreesAll, ParseTree.subtrees, List.append_nil, List.mem_cons] at hmem
    rcases hmem with heq | hmem
    · cases heq
      exact ⟨hstart, _, hb, h⟩
    · exact ih hstart hmem
  | without => simp [ParseTree.subtreesAll] at hmem
  | withOne _ ih => exact ih hstart hmem
  | manyNil => simp [ParseTree.subtreesAll] at hmem
  | manyCons h _ ih ih' =>
    rw [ParseTree.subtreesAll_append] at hmem
    rcases List.mem_append.mp hmem with hmem | hmem
    · exact ih hstart hmem
    · exact ih' ((h.onward hstart).inside hstart) hmem
  | someCons h _ ih ih' =>
    rw [ParseTree.subtreesAll_append] at hmem
    rcases List.mem_append.mp hmem with hmem | hmem
    · exact ih hstart hmem
    · exact ih' ((h.onward hstart).inside hstart) hmem
  | seqNil => simp [ParseTree.subtreesAll] at hmem
  | seqCons h _ ih ih' =>
    rw [ParseTree.subtreesAll_append] at hmem
    rcases List.mem_append.mp hmem with hmem | hmem
    · exact ih hstart hmem
    · exact ih' ((h.onward hstart).inside hstart) hmem
  | choice _ _ ih => exact ih hstart hmem

end Packrat
end PegScribe
