import Mathlib.Data.List.Nodup
import PegScribe.Proofs.Histories
import PegScribe.Proofs.Remembering

/-!
Tables: every pattern of a grammar is compiled when it is linked, and none is compiled later.

Linking comes by the patterns of each expression from left to right and adds those that are new
(`Collects`). What a run tries from there on is part of a rule that was linked, so its patterns stand in
the table, and its references lead to rules that were linked, too (`Expr.Covered`). Hence the table is the
same at every moment of every run (`LeadsTo.steady`).
-/
namespace PegScribe

/-! ### Sources -/

/-- The sources of the patterns in the rules, in the order of the rules. -/
def Grammar.sources (g : Grammar) : List String := g.rules.entries.flatMap (·.2.sources)

mutual

/-- Resolving references leaves the patterns alone. -/
theorem sources_resolved (resolve : Resolver) : ∀ e : Expr, (e.resolved resolve).sources = e.sources
  | .literal _ => rfl
  | .pattern _ => rfl
  | .misfit _ _ => rfl
  | .foreign _ => rfl
  | .call _ => rfl
  | .late callee => by
    rw [Expr.resolved]
    cases resolve callee <;> rfl
  | .rep _ body => sources_resolved resolve body
  | .seq items => sourcesAll_resolvedAll resolve items
  | .choice alts => sourcesAll_resolvedAll resolve alts

theorem sourcesAll_resolvedAll (resolve : Resolver) : ∀ es : List Expr,
    Expr.sourcesAll (Expr.resolvedAll resolve es) = Expr.sourcesAll es
  | [] => rfl
  | e :: rest => by
    rw [Expr.resolvedAll, Expr.sourcesAll, Expr.sourcesAll, sources_resolved resolve e,
      sourcesAll_resolvedAll resolve rest]

end

theorem eraseDups_concat (seen : List String) (source : String) :
    (seen ++ [source]).eraseDups =
      if source ∈ seen then seen.eraseDups else seen.eraseDups ++ [source] := by
  rw [List.eraseDups_append]
  by_cases hmem : source ∈ seen <;> simp [List.removeAll, List.eraseDups_cons, hmem]

/-! ### Collecting patterns -/

/-- The table holds what was seen, in the order in which it was first seen, each source with what it is
compiled to. -/
structure PatternTable.Collects [PatternLibrary] (t : PatternTable) (seen : List String) : Prop where
  keys : Ledger.keys t = seen.eraseDups
  nodup : (Ledger.keys t).Nodup
  compiled : ∀ source regex, (source, regex) ∈ t.entries → PatternLibrary.compile source = .ok regex

section Collecting
variable [PatternLibrary] {g : Grammar} {resolve : Resolver} {t t' : PatternTable} {seen : List String}

theorem collects_nil : PatternTable.Collects {} [] := ⟨by simp [Ledger.keys], .nil, nofun⟩

/-- A source that is compiled is the last one seen. -/
theorem PatternTable.Collects.compile (h : t.Collects seen) {source : String} {regex : Pattern}
    (hc : t.compile source = .ok (regex, t')) : t'.Collects (seen ++ [source]) := by
  unfold PatternTable.compile at hc
  cases hget : Ledger.get? t source with
  | some known =>
    rw [hget] at hc
    cases hc
    have hmem : source ∈ seen := by
      rw [← List.mem_eraseDups, ← h.keys]
      exact Ledger.mem_keys_of_get? hget
    exact ⟨by rw [eraseDups_concat, if_pos hmem, h.keys], h.nodup, h.compiled⟩
  | none =>
    rw [hget] at hc
    cases hparse : PatternLibrary.compile source with
    | error e => rw [hparse] at hc; cases hc
    | ok compiled =>
      rw [hparse] at hc
      cases hc
      have hnew : source ∉ Ledger.keys t := Ledger.get?_eq_none_iff.mp hget
      have hentries := Ledger.entries_insert_new hget regex
      have hkeys : (Ledger.insert t source regex).keys = Ledger.keys t ++ [source] := by
        rw [Ledger.keys, hentries, List.map_append]
        rfl
      refine ⟨?_, ?_, ?_⟩
      · rw [h.keys, List.mem_eraseDups] at hnew
        rw [hkeys, eraseDups_concat, if_neg hnew, h.keys]
      · rw [hkeys, ← List.concat_eq_append]
        exact h.nodup.concat hnew
      · intro s r hmem
        rw [hentries] at hmem
        rcases List.mem_append.mp hmem with hmem | hmem
        · exact h.compiled s r hmem
        · cases List.mem_singleton.mp hmem
          exact hparse

mutual

/-- Linking an expression comes by its patterns from left to right. -/
theorem PatternTable.Collects.link : ∀ {e : Expr} {t : PatternTable} {seen : List String}
    {linked : Expr × PatternTable}, t.Collects seen → e.link g resolve t = .ok linked →
      linked.2.Collects (seen ++ e.sources)
  | .literal _, _, _, _, ht, h => by cases h; simpa [Expr.sources] using ht
  | .misfit _ _, _, _, _, ht, h => by cases h; simpa [Expr.sources] using ht
  | .foreign _, _, _, _, ht, h => by cases h; simpa [Expr.sources] using ht
  | .pattern source, _, _, _, ht, h => by
    obtain ⟨⟨regex, t'⟩, hc, h⟩ := Expr.bind_ok h
    cases h
    exact ht.compile hc
  | .call key, _, _, _, ht, h => by
    obtain ⟨key', -, h⟩ := Expr.bind_ok h
    cases h
    simpa [Expr.sources] using ht
  | .late callee, _, _, _, ht, h => by
    rw [Expr.link] at h
    cases hfound : resolve callee with
    | none => rw [hfound] at h; cases h
    | some key =>
      rw [hfound] at h
      obtain ⟨key', -, h⟩ := Expr.bind_ok h
      cases h
      simpa [Expr.sources] using ht
  | .rep how body, _, _, _, ht, h => by
    obtain ⟨⟨body', t'⟩, hbody, h⟩ := Expr.bind_ok h
    cases h
    exact (ht.link hbody :)
  | .seq items, _, _, _, ht, h => by
    obtain ⟨⟨items', t'⟩, hitems, h⟩ := Expr.bind_ok h
    cases h
    exact ht.linkAll hitems
  | .choice alts, _, _, _, ht, h => by
    obtain ⟨⟨alts', t'⟩, halts, h⟩ := Expr.bind_ok h
    cases h
    exact ht.linkAll halts

theorem PatternTable.Collects.linkAll : ∀ {es : List Expr} {t : PatternTable} {seen : List String}
    {linked : List Expr × PatternTable}, t.Collects seen → Expr.linkAll g resolve es t = .ok linked →
      linked.2.Collects (seen ++ Expr.sourcesAll es)
  | [], _, _, _, ht, h => by cases h; simpa [Expr.sourcesAll] using ht
  | e :: rest, _, _, _, ht, h => by
    obtain ⟨⟨e', t₁⟩, he, h⟩ := Expr.bind_ok h
    obtain ⟨⟨rest', t₂⟩, hrest, h⟩ := Expr.bind_ok h
    cases h
    have hboth := (ht.link he).linkAll hrest
    rwa [List.append_assoc] at hboth

end

theorem PatternTable.Collects.linkRules : ∀ {rules : List (RuleKey × Expr)} {t t' : PatternTable}
    {seen : List String}, t.Collects seen → (linkRules g resolve rules t).2 = .ok t' →
      t'.Collects (seen ++ rules.flatMap (·.2.sources))
  | [], _, _, _, ht, h => by cases h; simpa using ht
  | (key, e) :: rest, t, t', seen, ht, h => by
    unfold PegScribe.linkRules at h
    cases hlink : e.link g resolve t with
    | error f => rw [hlink] at h; cases h
    | ok linked =>
      rw [hlink] at h
      have hall := (ht.link hlink).linkRules h
      rwa [List.append_assoc] at hall

end Collecting

/-! ### What linked rules lead to -/

/-- The references lead to known rules, and the patterns stand in the table. -/
structure Expr.Covered (known : RuleKey → Prop) (t : PatternTable) (e : Expr) : Prop where
  closed : e.Closed known
  tabled : ∀ source ∈ e.sources, source ∈ Ledger.keys t

section Covered
variable {known : RuleKey → Prop} {t : PatternTable} {e : Expr} {es : List Expr}

theorem Expr.Covered.body {how : Repetition} (h : (Expr.rep how e).Covered known t) :
    e.Covered known t := ⟨h.closed, h.tabled⟩

theorem Expr.Covered.again {how how' : Repetition} (h : (Expr.rep how e).Covered known t) :
    (Expr.rep how' e).Covered known t := ⟨h.closed, h.tabled⟩

theorem Expr.Covered.item (h : (Expr.seq (e :: es)).Covered known t) :
    e.Covered known t ∧ (Expr.seq es).Covered known t :=
  ⟨⟨(closed_cons h.closed).1, fun s hs => h.tabled s (List.mem_append_left _ hs)⟩,
    ⟨(closed_cons h.closed).2, fun s hs => h.tabled s (List.mem_append_right _ hs)⟩⟩

theorem Expr.Covered.alternative (h : (Expr.choice (e :: es)).Covered known t) :
    e.Covered known t ∧ (Expr.choice es).Covered known t :=
  ⟨⟨(closed_cons h.closed).1, fun s hs => h.tabled s (List.mem_append_left _ hs)⟩,
    ⟨(closed_cons h.closed).2, fun s hs => h.tabled s (List.mem_append_right _ hs)⟩⟩

theorem covered_call {key : RuleKey} (h : known key) : (Expr.call key).Covered known t :=
  ⟨fun _ href => ⟨key, List.mem_singleton.mp href, h⟩, nofun⟩

theorem Expr.Covered.has {key : RuleKey} (h : (Expr.call key).Covered known t) : known key := by
  obtain ⟨key', heq, hkey⟩ := h.closed (.call key) (List.mem_singleton_self _)
  cases heq
  exact hkey

variable [PatternLibrary]

/-- A pattern that stands in the table is found there. -/
theorem compile_of_mem {source : String} (h : source ∈ Ledger.keys t) :
    ∃ regex, t.compile source = .ok (regex, t) := by
  obtain ⟨regex, hget⟩ : ∃ regex, Ledger.get? t source = some regex := by
    rw [← Option.isSome_iff_exists]
    exact (Ledger.contains_iff_mem_keys t source).mpr h
  exact ⟨regex, by rw [PatternTable.compile, hget]⟩

theorem Expr.Covered.compile {source : String} {regex : Pattern} {t' : PatternTable}
    (h : (Expr.pattern source).Covered known t) (hc : t.compile source = .ok (regex, t')) : t' = t := by
  obtain ⟨_, hfound⟩ := compile_of_mem (h.tabled source (List.mem_singleton_self _))
  rw [hfound] at hc
  cases hc
  rfl

end Covered

/-- The known rules are there, and lead to nothing unknown. -/
def Grammar.Covers (g : Grammar) (known : RuleKey → Prop) (t : PatternTable) : Prop :=
  ∀ key body, known key → g.rules.get? key = some body → body.Covered known t

namespace Packrat
variable {g : Grammar} {known : RuleKey → Prop} {t : PatternTable} {text : Array Char}

/-- The moment tries what is covered, and the table is as it was. -/
structure Moment.Steady (known : RuleKey → Prop) (t : PatternTable) (c : Moment) : Prop where
  covered : c.expr.Covered known t
  table : c.run.patterns = t

variable [PatternLibrary]

/-- Trying what is covered leaves the table as it is. -/
theorem Tries.keeps_table (hg : g.Covers known t) {e : Expr} {pos : Int} {r r' : Run} {m : Match}
    (h : Tries g text e pos r m r') (he : e.Covered known t) (hr : r.patterns = t) :
    r'.patterns = t := by
  induction h with
  | literalHit _ => exact hr
  | literalMiss _ => rw [patterns_miss, hr]
  | patternHit hc _ => exact he.compile (hr ▸ hc)
  | patternMiss hc _ =>
    rw [patterns_miss]
    exact he.compile (hr ▸ hc)
  | again _ => exact hr
  | recalled _ => exact hr
  | opened _ hb _ ih => exact ih (hg _ _ he.has hb) hr
  | optionalHit _ ih => exact ih he.body hr
  | optionalMiss _ ih => exact ih he.body hr
  | manyEnd _ ih => exact ih he.body hr
  | manyIdle _ ih => exact ih he.body hr
  | manyNext _ _ _ ih ih' => exact ih' he (ih he.body hr)
  | someMiss _ ih => exact ih he.body hr
  | someHit _ _ ih ih' => exact ih' he.again (ih he.body hr)
  | seqNil => exact hr
  | seqMiss _ ih => exact ih he.item.1 hr
  | seqHit _ _ ih ih' => exact ih' he.item.2 (ih he.item.1 hr)
  | choiceNil => exact hr
  | choiceHit _ ih => exact ih he.alternative.1 hr
  | choiceNext _ _ ih ih' => exact ih' he.alternative.2 (ih he.alternative.1 hr)

theorem Leads.steady (hg : g.Covers known t) {c c' : Moment} (h : Leads g text c c')
    (hc : c.Steady known t) : c'.Steady known t := by
  obtain ⟨hcovered, htable⟩ := hc
  cases h with
  | body _ hb => exact ⟨hg _ _ hcovered.has hb, htable⟩
  | round => exact ⟨hcovered.body, htable⟩
  | nextRounds hm _ => exact ⟨hcovered, hm.keeps_table hg hcovered.body htable⟩
  | laterRounds hm => exact ⟨hcovered.again, hm.keeps_table hg hcovered.body htable⟩
  | item => exact ⟨hcovered.item.1, htable⟩
  | nextItems hm => exact ⟨hcovered.item.2, hm.keeps_table hg hcovered.item.1 htable⟩
  | alternative => exact ⟨hcovered.alternative.1, htable⟩
  | nextAlternatives hm =>
    exact ⟨hcovered.alternative.2, hm.keeps_table hg hcovered.alternative.1 htable⟩

theorem LeadsTo.steady (hg : g.Covers known t) {c c' : Moment} (h : LeadsTo g text c c')
    (hc : c.Steady known t) : c'.Steady known t := by
  induction h with
  | refl => exact hc
  | tail _ hlast ih => exact hlast.steady hg ih

end Packrat

namespace Registry
open Packrat
variable {r built : Registry} {resolve : Resolver} {p : Program}

section Library
variable [PatternLibrary]

theorem collects_of_build (h : r.build resolve = (.ok p, built)) :
    p.patterns.Collects r.grammar.sources := by
  obtain ⟨table, hlink, rfl⟩ := of_build h
  have hall := collects_nil.linkRules hlink
  rwa [List.nil_append] at hall

theorem sources_of_build (h : r.build resolve = (.ok p, built)) :
    p.grammar.sources = r.grammar.sources := by
  unfold Grammar.sources
  rw [entries_of_build h, List.flatMap_map]
  simp only [sources_resolved]

/-- A build leaves the rules that it hands out. -/
theorem grammar_of_build (h : r.build resolve = (.ok p, built)) : built.grammar = p.grammar := by
  unfold build at h
  cases hroot : r.grammar.root with
  | none => rw [hroot] at h; cases h
  | some root =>
    rw [hroot] at h
    dsimp only at h
    split at h
    · cases h
    · split at h
      · cases h
      · cases h; rfl

/-- Whatever becomes of the registry, the rules of a build lead to nothing that was not linked with
them. -/
theorem covers_of_build (h : r.build resolve = (.ok p, built)) (ops : List Op) :
    (built.history ops).1.grammar.Covers built.grammar.Has p.patterns := by
  have hsettled := settled_of_build h
  have hkeeps : built.Keeps (built.history ops).1 := Keeps.history hsettled (fun _ _ => id) ops
  intro key body hkey hbody
  obtain ⟨e, he⟩ := Option.isSome_iff_exists.mp hkey
  cases (hkeeps key e he).symm.trans hbody
  refine ⟨hsettled key body he, fun source hsource => ?_⟩
  rw [(collects_of_build h).keys, ← sources_of_build h, ← grammar_of_build h, List.mem_eraseDups]
  exact List.mem_flatMap.mpr ⟨_, Ledger.mem_entries_of_get? he, hsource⟩

/-- Patterns are compiled once and for all. The table of a program holds the sources of the patterns that
stand anywhere in the rules, each once and in the order in which they are first met, and each with what it
is compiled to. Whatever becomes of the registry afterwards, every run from a rule that was there when it
was built finds its patterns in the table, and leaves the table as it is, also when it is broken off. -/
theorem patterns_compiled_once (r built : Registry) (resolve : Resolver) (p : Program)
    (hbuild : r.build resolve = (.ok p, built)) :
    (p.patterns.keys = r.grammar.sources.eraseDups ∧ p.grammar.sources = r.grammar.sources ∧
      p.patterns.keys.Nodup ∧
      ∀ source regex, (source, regex) ∈ p.patterns.entries → PatternLibrary.compile source = .ok regex) ∧
    ∀ (ops : List Op) (key : RuleKey), built.hasRule key = true → ∀ (text : Array Char) (pos : Int),
      (∀ c, LeadsTo (built.history ops).1.grammar text (.start p.patterns key pos) c →
        c.run.patterns = p.patterns ∧
        (∀ source, c.expr = .pattern source →
          ∃ regex, c.run.patterns.compile source = .ok (regex, p.patterns)) ∧
        ∀ m last, Tries (built.history ops).1.grammar text c.expr c.pos c.run m last →
          last.patterns = p.patterns) ∧
      ∀ depth v, parse (built.history ops).1.grammar p.patterns depth key text pos = .ok v →
        v.patterns = p.patterns := by
  have hcollects := collects_of_build hbuild
  refine ⟨⟨hcollects.keys, sources_of_build hbuild, hcollects.nodup, hcollects.compiled⟩, ?_⟩
  intro ops key hkey text pos
  have hcovers := covers_of_build hbuild ops
  have hstart : (Moment.start p.patterns key pos).Steady built.grammar.Has p.patterns :=
    ⟨covered_call hkey, rfl⟩
  refine ⟨fun c hc => ?_, fun depth v hv => ?_⟩
  · obtain ⟨hcovered, htable⟩ := hc.steady hcovers hstart
    refine ⟨htable, fun source heq => ?_, fun m last htries => ?_⟩
    · rw [heq] at hcovered
      rw [htable]
      exact compile_of_mem (hcovered.tabled source (List.mem_singleton_self _))
    · exact htries.keeps_table hcovers hcovered htable
  · obtain ⟨tree, last, htries, rfl⟩ := tries_of_parse hv
    exact htries.keeps_table hcovers hstart.covered rfl

end Library

/-- A phrase is a word and further words, which may be numbers; the pattern for words stands in two
rules. -/
def phrases : Registry :=
  { grammar :=
      { rules := ⟨[(.given "phrase" "phrase", .seq [.pattern "[a-z]+",
            .rep .zeroOrMore (.seq [.pattern "[ ]+", .late (.method ⟨"G.word"⟩)])]),
          (.given "word" "word", .choice [.pattern "[a-z]+", .pattern "[0-9]+"])]⟩
        root := some (.given "phrase" "phrase") } }

theorem patterns_compiled_once_phrases : ∃ p built, phrases.build (fun _ => some
      (.given "word" "word")) = (.ok p, built) ∧ built.hasRule (.given "phrase" "phrase") = true ∧
    p.patterns.keys = ["[a-z]+", "[ ]+", "[0-9]+"] ∧
    ∀ ops text pos depth v, parse (built.history ops).1.grammar p.patterns depth
      (.given "phrase" "phrase") text pos = .ok v → v.patterns = p.patterns := by
  have hok : (phrases.build fun _ => some (.given "word" "word")).1.isOk = true := by decide +kernel
  have hrule : (phrases.build fun _ => some (.given "word" "word")).2.hasRule
      (.given "phrase" "phrase") = true := by decide +kernel
  rcases hbuild : phrases.build fun _ => some (.given "word" "word") with ⟨f | p, built⟩
  · rw [hbuild] at hok; cases hok
  · rw [hbuild] at hrule
    obtain ⟨⟨hkeys, -⟩, hruns⟩ := patterns_compiled_once phrases built _ p hbuild
    refine ⟨p, built, rfl, hrule, hkeys.trans (by decide +kernel), ?_⟩
    intro ops text pos depth v hv
    exact (hruns ops _ hrule text pos).2 depth v hv

end Registry
end PegScribe
