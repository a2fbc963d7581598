import PegScribe.Ir.Grammar
import PegScribe.Proofs.Instructions
import PegScribe.Proofs.Shallow

/-!
The round trip: parsing undoes printing, and accepts nothing else.

The bodies of the grammar's rules are read as the instructions of a text are read one after another
(`reads_instr`), and the grammar is shallow, so the parser answers what reading comes to. It accepts
exactly the texts that descriptions are printed as, each of which comes from one description with one
choice of gaps.
-/
namespace PegScribe.Ir
open Reading Stage

/-- The grammar and its factory. -/
def stage : Stage where
  grammar := grammar
  factory := treeFactory

/-! ### Terms -/

section Terms
variable {source : Source} {α β : Type}

/-- With fuel enough the term is read as the reader says, and yields the node of what was read. -/
def Reads (source : Source) (n : Nat) (t : Term) (reader : Nat → Option (Nat × α)) (node : α → Value) :
    Prop :=
  ∀ fuel ≥ n, ∀ frame pos, interpret stage parts.self source fuel frame t pos =
    some ((reader pos).map fun (stop, a) => (stop, .ok (node a)))

/-- The terms are read in turn as the reader says, one value for each. -/
structure ReadsRow (source : Source) (n : Nat) (ts : List Term)
    (reader : Nat → Option (Nat × List Value)) : Prop where
  reads : ∀ fuel ≥ n, ∀ frame pos, inTurn (interpret stage parts.self source fuel frame) ts pos =
    some ((reader pos).map fun (stop, vs) => (stop, vs.map .ok))
  length : ∀ pos, ∀ found ∈ reader pos, found.2.length = ts.length

theorem Reads.mono {n n' : Nat} {t : Term} {reader : Nat → Option (Nat × α)} {node : α → Value}
    (h : Reads source n t reader node) (hle : n ≤ n') : Reads source n' t reader node :=
  fun fuel hfuel => h fuel (by omega)

/-- Readers that lead to the same nodes. -/
theorem Reads.congr {n : Nat} {t : Term} {reader : Nat → Option (Nat × α)} {node : α → Value}
    {reader' : Nat → Option (Nat × β)} {node' : β → Value} (h : Reads source n t reader node)
    (heq : ∀ pos, (reader pos).map (fun (stop, a) => (stop, node a)) =
      (reader' pos).map fun (stop, b) => (stop, node' b)) : Reads source n t reader' node' := by
  intro fuel hfuel frame pos
  have hpos := congrArg (Option.map fun (stop, v) => (stop, (Except.ok v : Deferred))) (heq pos)
  rw [Option.map_map, Option.map_map] at hpos
  exact (h fuel hfuel frame pos).trans (congrArg some hpos)

theorem scan_eq_lexeme {end? : Nat → Option Nat} {k : Kind}
    (h : ∀ pos, end? pos = (k.munch (source.chars.toList.drop pos)).map (pos + ·)) (pos : Nat) :
    lexeme source end? pos = (scan source k pos).map fun (stop, t) => (stop, .ok (.token t)) := by
  simp only [lexeme, scan, h, Option.map_map]
  rfl

theorem reads_lit (w : Word) : Reads source 1 (lit w.text) (scan source (.word w)) Value.token := by
  rintro (_ | fuel) hfuel frame pos
  · omega
  · refine congrArg some (scan_eq_lexeme (fun pos => ?_) pos)
    simp only [literalEnd?, Kind.munch]
    split <;> rfl

theorem reads_pat {k : Kind} {p : String} (h : k.pattern? = some p) :
    Reads source 1 (pat p) (scan source k) Value.token := by
  obtain ⟨r, hr, hmatches⟩ := compile_pattern h
  rintro (_ | fuel) hfuel frame pos
  · omega
  · simp only [pat, interpret, plain?, hr]
    exact congrArg some (scan_eq_lexeme (hmatches source.chars) pos)

theorem reads_ref {n : Nat} {name : String} {t : Term} {method : Method} {owner : String}
    {reader : Nat → Option (Nat × α)} {node : α → Value}
    (htarget : stage.target? name = some (.rule method owner [.rule none [t]]))
    (h : Reads source n t reader node) : Reads source (n + 1) (ref name) reader node := by
  rintro (_ | fuel) hfuel frame pos
  · omega
  · simp only [ref, interpret, htarget]
    exact h fuel (by omega) _ pos

theorem readsRow_nil (n : Nat) : ReadsRow source n [] fun pos => some (pos, []) where
  reads _ _ _ _ := rfl
  length := by rintro pos _ ⟨⟩; rfl

theorem readsRow_cons {n : Nat} {t : Term} {ts : List Term} {reader : Nat → Option (Nat × α)}
    {node : α → Value} {row : Nat → Option (Nat × List Value)}
    (h : Reads source n t reader node) (hrow : ReadsRow source n ts row) :
    ReadsRow source n (t :: ts) fun pos => (reader pos).bind fun (mid, a) =>
      (row mid).map fun (stop, vs) => (stop, node a :: vs) where
  reads fuel hfuel frame pos := by
    simp only [inTurn, h fuel hfuel]
    cases reader pos with
    | none => rfl
    | some found =>
      simp only [Option.map_some, Option.bind_some, Option.bind_eq_bind, hrow.reads fuel hfuel]
      cases row found.1 <;> rfl
  length pos found hfound := by
    obtain ⟨first, -, hfound⟩ := Option.bind_eq_some_iff.mp hfound
    obtain ⟨rest, hrest, rfl⟩ := Option.map_eq_some_iff.mp hfound
    rw [List.length_cons, List.length_cons, hrow.length _ _ hrest]

theorem gather_ok : ∀ vs : List Value, gather (vs.map .ok) = .ok vs
  | [] => rfl
  | v :: vs => by
    rw [List.map_cons, gather, gather_ok vs]
    rfl

theorem fill_of_length : ∀ {ps : List Param} {vs : List Value}, vs.length = ps.length →
    Signature.fill ps vs = vs
  | [], [], _ => rfl
  | _ :: _, v :: _, h => congrArg (v :: ·) (fill_of_length (Nat.succ.inj h))

/-- A factory method that is given a value for each field makes the node of them. -/
theorem maker_call {shape : Shape} {vs : List Value} (method : Method) (self : FactoryObject)
    (h : vs.length = shape.fields.length) :
    (maker shape).call method self vs = .ok (shape.make vs) := by
  have hpositional : ∀ names, (Signature.required names).positional =
      names.map fun n => { name := n } := fun names => by
    simp [Signature.positional, Signature.required]
  have hnamed : ∀ names, (Signature.required names).named = [] := fun names => by
    simp [Signature.named, Signature.required]
  have hrest : ∀ names, (Signature.required names).hasRest = false := fun names => by
    simp [Signature.hasRest, Signature.required]
  have hfill : Signature.fill (shape.fields.map fun n => { name := n }) vs = vs :=
    fill_of_length (by simpa using h)
  have hdrop : (shape.fields.map fun n => ({ name := n } : Param)).drop shape.fields.length = [] :=
    List.drop_eq_nil_of_le (by simp)
  have hbind : (Signature.required shape.fields).bind method.qualname vs = .ok vs := by
    simp only [Signature.bind, hpositional, hnamed, hrest, hfill, h, hdrop]
    simp
  simp only [FactoryMethod.call, maker, hbind]

theorem reads_action {n : Nat} {name : String} {method : Method} {shape : Shape} {ts : List Term}
    {row : Nat → Option (Nat × List Value)}
    (hm : treeFactory.methods.find? (fun (n, _) => n = name) = some (name, (method, maker shape)))
    (hrow : ReadsRow source n ts row) (hlen : ts.length = shape.fields.length) :
    Reads source (n + 1) (.action name ts) row shape.make := by
  rintro (_ | fuel) hfuel frame pos
  · omega
  · have hfind : stage.factory.methods.find? (fun (n, _) => n = name) =
        some (name, (method, maker shape)) := hm
    simp only [interpret, hfind, hrow.reads fuel (by omega)]
    cases hpos : row pos with
    | none => rfl
    | some found =>
      have hvalue := maker_call method parts.self ((hrow.length pos found hpos).trans hlen)
      simp only [Option.map_some, Option.bind_eq_bind, Option.bind_some, gather_ok]
      exact congrArg (fun v => some (some (found.1, v))) hvalue

/-- What is made of two readings is the same if it is where they go on after a first part they share. -/
theorem map_bind_congr {β γ δ : Type} {first : Option α} {rest : α → Option β} {rest' : α → Option γ}
    {make : β → δ} {make' : γ → δ} (h : ∀ a, (rest a).map make = (rest' a).map make') :
    (first.bind rest).map make = (first.bind rest').map make' := by
  cases first with
  | none => rfl
  | some a => exact h a

/-- A rule whose body is a call of a factory method. -/
theorem reads_rule {n : Nat} {rule name owner : String} {declared method : Method} {shape : Shape}
    {ts : List Term} {row : Nat → Option (Nat × List Value)}
    (htarget : stage.target? rule = some (.rule declared owner [.rule none [.action name ts]]))
    (hm : treeFactory.methods.find? (fun (n, _) => n = name) = some (name, (method, maker shape)))
    (hrow : ReadsRow source n ts row) (hlen : ts.length = shape.fields.length) :
    Reads source (n + 2) (ref rule) row shape.make :=
  reads_ref htarget (reads_action hm hrow hlen)

theorem reads_optional {n : Nat} {t : Term} {reader : Nat → Option (Nat × α)} {node : α → Value}
    (h : Reads source n t reader node) :
    Reads source (n + 1) (.wrap .optional [t])
      (fun pos => some (match reader pos with
        | some (stop, a) => (stop, some a)
        | none => (pos, none))) (fun a => (a.map node).getD .absent) := by
  rintro (_ | fuel) hfuel frame pos
  · omega
  · simp only [interpret, h fuel (by omega)]
    cases reader pos <;> rfl

theorem reads_firstOf_nil (n : Nat) (node : α → Value) :
    Reads source (n + 1) (.firstOf []) (fun _ => none) node := by
  rintro (_ | fuel) hfuel frame pos
  · omega
  · rfl

theorem reads_firstOf_cons {n : Nat} {t : Term} {ts : List Term}
    {reader others : Nat → Option (Nat × α)} {node : α → Value} (h : Reads source n t reader node)
    (hts : Reads source (n + 1) (.firstOf ts) others node) :
    Reads source (n + 1) (.firstOf (t :: ts)) (fun pos => (reader pos).or (others pos)) node := by
  rintro (_ | fuel) hfuel frame pos
  · omega
  · have hothers := hts (fuel + 1) hfuel frame pos
    simp only [interpret] at hothers ⊢
    simp only [firstOf, h fuel (by omega)]
    cases reader pos with
    | none => exact hothers
    | some found => rfl

end Terms

/-! ### The rules of the grammar -/

section Rules
variable (source : Source)

theorem reads_identifier :
    Reads source 3 (ref "identifier") (scan source .name) fun t => Operand.node (.name t) := by
  have hrow : ReadsRow source 1 [pat "[%@][-a-zA-Z$._0-9]+"] _ :=
    readsRow_cons (reads_pat (k := .name) rfl) (readsRow_nil 1)
  refine (reads_rule (by with_unfolding_all rfl) (by with_unfolding_all rfl) hrow rfl).congr
    fun pos => ?_
  cases scan source .name pos <;> rfl

theorem reads_integer :
    Reads source 3 (ref "integer_literal") (scan source .number)
      fun t => Operand.node (.number t) := by
  have hrow : ReadsRow source 1 [pat "-?[0-9]+"] _ :=
    readsRow_cons (reads_pat (k := .number) rfl) (readsRow_nil 1)
  refine (reads_rule (by with_unfolding_all rfl) (by with_unfolding_all rfl) hrow rfl).congr
    fun pos => ?_
  cases scan source .number pos <;> rfl

theorem reads_type : Reads source 4 (ref "llvm_type") (readType source) Ty.node := by
  have hrow : ReadsRow source 2 [pat "i[0-9]+", .wrap .optional [lit "*"]] _ :=
    readsRow_cons ((reads_pat (k := .type) rfl).mono (by omega))
      (readsRow_cons (reads_optional (reads_lit .star)) (readsRow_nil 2))
  refine (reads_rule (by with_unfolding_all rfl) (by with_unfolding_all rfl) hrow rfl).congr
    fun pos => ?_
  simp only [readType]
  cases scan source .type pos with
  | none => rfl
  | some found => cases hstar : scan source (.word .star) found.1 <;> simp [hstar] <;> rfl

theorem reads_value : Reads source 5 (ref "value") (readOperand source) Operand.node := by
  have hname : Reads source 3 (ref "identifier")
      (fun pos => (scan source .name pos).map fun (stop, t) => (stop, Operand.name t))
      Operand.node := (reads_identifier source).congr fun pos => by rw [Option.map_map]; rfl
  have hnumber : Reads source 3 (ref "integer_literal")
      (fun pos => (scan source .number pos).map fun (stop, t) => (stop, Operand.number t))
      Operand.node := (reads_integer source).congr fun pos => by rw [Option.map_map]; rfl
  refine (reads_ref (by with_unfolding_all rfl) (reads_firstOf_cons hname
    (reads_firstOf_cons hnumber (reads_firstOf_nil 3 Operand.node)))).congr fun pos => ?_
  rw [Option.or_none]
  rfl

/-! Within an instruction every part is read with the same fuel. -/

theorem reads_word (w : Word) : Reads source 5 (lit w.text) (scan source (.word w)) Value.token :=
  (reads_lit w).mono (by omega)

theorem reads_alignment : Reads source 5 (pat "[0-9]+") (scan source .digits) Value.token :=
  (reads_pat rfl).mono (by omega)

theorem reads_name :
    Reads source 5 (ref "identifier") (scan source .name) fun t => Operand.node (.name t) :=
  (reads_identifier source).mono (by omega)

theorem reads_typePart : Reads source 5 (ref "llvm_type") (readType source) Ty.node :=
  (reads_type source).mono (by omega)

theorem reads_alloca : Reads source 7 (ref "alloca_instruction") (readAlloca source) Instr.node := by
  have hrow : ReadsRow source 5 [ref "identifier", lit "=", lit "alloca", ref "llvm_type", lit ",",
      lit "align", pat "[0-9]+"] _ :=
    readsRow_cons (reads_name source) <| readsRow_cons (reads_word source .equal) <|
    readsRow_cons (reads_word source .alloca) <| readsRow_cons (reads_typePart source) <|
    readsRow_cons (reads_word source .comma) <| readsRow_cons (reads_word source .align) <|
    readsRow_cons (reads_alignment source) (readsRow_nil 5)
  refine (reads_rule (by with_unfolding_all rfl) (by with_unfolding_all rfl) hrow rfl).congr
    fun pos => ?_
  -- part by part: the row and the reader go on alike after each of the seven
  iterate 7 refine map_bind_congr fun (_, _) => (Option.map_map ..).trans ?_
  rfl

theorem reads_load : Reads source 7 (ref "load_instruction") (readLoad source) Instr.node := by
  have hrow : ReadsRow source 5 [ref "identifier", lit "=", lit "load", ref "llvm_type",
      ref "identifier", lit ",", lit "align", pat "[0-9]+"] _ :=
    readsRow_cons (reads_name source) <| readsRow_cons (reads_word source .equal) <|
    readsRow_cons (reads_word source .load) <| readsRow_cons (reads_typePart source) <|
    readsRow_cons (reads_name source) <| readsRow_cons (reads_word source .comma) <|
    readsRow_cons (reads_word source .align) <| readsRow_cons (reads_alignment source) (readsRow_nil 5)
  refine (reads_rule (by with_unfolding_all rfl) (by with_unfolding_all rfl) hrow rfl).congr
    fun pos => ?_
  iterate 8 refine map_bind_congr fun (_, _) => (Option.map_map ..).trans ?_
  rfl

theorem reads_store : Reads source 7 (ref "store_instruction") (readStore source) Instr.node := by
  have hrow : ReadsRow source 5 [lit "store", ref "llvm_type", ref "value", lit ",",
      ref "llvm_type", ref "identifier", lit ",", lit "align", pat "[0-9]+"] _ :=
    readsRow_cons (reads_word source .store) <| readsRow_cons (reads_typePart source) <|
    readsRow_cons (reads_value source) <| readsRow_cons (reads_word source .comma) <|
    readsRow_cons (reads_typePart source) <| readsRow_cons (reads_name source) <|
    readsRow_cons (reads_word source .comma) <| readsRow_cons (reads_word source .align) <|
    readsRow_cons (reads_alignment source) (readsRow_nil 5)
  refine (reads_rule (by with_unfolding_all rfl) (by with_unfolding_all rfl) hrow rfl).congr
    fun pos => ?_
  iterate 9 refine map_bind_congr fun (_, _) => (Option.map_map ..).trans ?_
  rfl

/-- The term for one instruction. -/
def oneInstr : Term :=
  .firstOf [ref "alloca_instruction", ref "load_instruction", ref "store_instruction"]

/-- An instruction is read as the first form that can be read. -/
theorem reads_instr : Reads source 8 oneInstr (readInstr source) Instr.node :=
  (reads_firstOf_cons (reads_alloca source) (reads_firstOf_cons (reads_load source)
    (reads_firstOf_cons (reads_store source) (reads_firstOf_nil 7 Instr.node)))).congr fun pos => by
      rw [Option.or_none]
      rfl

end Rules

/-! ### One instruction after another -/

section Rounds
variable {source : Source} {attempt : Nat → Option (Reading Deferred)}

/-- What becomes of instructions once all has been read. -/
def deferred (is : List (Instr Token)) : List Deferred := is.map fun i => .ok i.node

theorem listOf_deferred (is : List (Instr Token)) :
    listOf (deferred is) = .ok (.list (is.map Instr.node)) := by
  have hmap : deferred is = (is.map Instr.node).map .ok := by rw [deferred, List.map_map]; rfl
  rw [listOf, hmap, gather_ok]
  rfl

/-- Instructions whose lexemes stand in a row up to the end are all read. -/
theorem rounds_of_chain
    (hattempt : ∀ pos, attempt pos =
      some ((readInstr source pos).map fun (stop, i) => (stop, .ok i.node))) :
    ∀ {is : List (Instr Token)} {fuel pos : Nat}, pos ≤ source.length → source.length - pos < fuel →
      Chain source pos (is.flatMap Instr.pieces) source.length →
      rounds attempt fuel pos = some (source.length, deferred is)
  | _, 0, _, _, hfuel, _ => by omega
  | [], fuel + 1, pos, _, _, h => by
    cases h
    rw [rounds, hattempt, readInstr_end]
    rfl
  | i :: is, fuel + 1, pos, hpos, hfuel, h => by
    obtain ⟨mid, hi, his⟩ := chain_append.mp h
    have hread := readInstr_of_chain hi
    have hmid := readInstr_onward hpos hread
    have hrest := rounds_of_chain hattempt hmid.2 (show source.length - mid < fuel by omega) his
    rw [rounds, hattempt, hread]
    simp only [Option.map_some, Option.bind_eq_bind, Option.bind_some, hrest,
      if_neg (show ¬ mid = pos by omega)]
    rfl

/-- Reading comes to an end, and what was read has its lexemes in a row. -/
theorem rounds_ends
    (hattempt : ∀ pos, attempt pos =
      some ((readInstr source pos).map fun (stop, i) => (stop, .ok i.node))) :
    ∀ {fuel pos : Nat}, pos ≤ source.length → source.length - pos < fuel →
      ∃ is stop, rounds attempt fuel pos = some (stop, deferred is) ∧
        Chain source pos (is.flatMap Instr.pieces) stop
  | 0, _, _, hfuel => by omega
  | fuel + 1, pos, hpos, hfuel => by
    cases hread : readInstr source pos with
    | none =>
      refine ⟨[], pos, ?_, rfl⟩
      rw [rounds, hattempt, hread]
      rfl
    | some found =>
      obtain ⟨mid, i⟩ := found
      have hmid := readInstr_onward hpos hread
      obtain ⟨is, stop, hrest, hchain⟩ :=
        rounds_ends hattempt hmid.2 (show source.length - mid < fuel by omega)
      refine ⟨i :: is, stop, ?_, chain_append.mpr ⟨mid, chain_of_readInstr hread, hchain⟩⟩
      rw [rounds, hattempt, hread]
      simp only [Option.map_some, Option.bind_eq_bind, Option.bind_some, hrest,
        if_neg (show ¬ mid = pos by omega)]
      rfl

end Rounds

/-! ### Reading a whole text -/

/-- What the parser is built from. -/
def rooted : Parser.Parts := { parts with root := .method ⟨"LlvmIrGrammar.instructions"⟩ }

section Whole
variable (source : Source)

/-- Fuel that is always enough: one round for each character, and some for the terms. -/
def fuelFor : Nat := source.length + 10

/-- Reading from the root reads one or more instructions. -/
theorem read_eq : Reading.read rooted (fuelFor source) source =
    interpret stage parts.self source (source.length + 9) ⟨"LlvmIrGrammar", []⟩
      (.wrap .oneOrMore [oneInstr]) 0 := by
  with_unfolding_all rfl

theorem attempt_eq (pos : Nat) :
    interpret stage parts.self source (source.length + 8) ⟨"LlvmIrGrammar", []⟩ oneInstr pos =
      some ((readInstr source pos).map fun (stop, i) => (stop, .ok i.node)) :=
  reads_instr source _ (by omega) _ pos

theorem read_of_rounds {i : Instr Token} {is : List (Instr Token)} {mid stop : Nat}
    (hread : readInstr source 0 = some (mid, i))
    (hrounds : rounds (interpret stage parts.self source (source.length + 8) ⟨"LlvmIrGrammar", []⟩
      oneInstr) (source.length + 8) mid = some (stop, deferred is)) :
    Reading.read rooted (fuelFor source) source =
      some (some (stop, .ok (.list ((i :: is).map Instr.node)))) := by
  rw [read_eq, interpret, attempt_eq, hread]
  simp only [Option.map_some, Option.bind_eq_bind, Option.bind_some, hrounds]
  exact congrArg (fun v => some (some (stop, v))) (listOf_deferred (i :: is))

/-- Reading ends: nothing could be read, or instructions whose lexemes stand in a row. -/
theorem read_ends : Reading.read rooted (fuelFor source) source = some none ∨
    ∃ is stop, is ≠ [] ∧ Chain source 0 (is.flatMap Instr.pieces) stop ∧
      Reading.read rooted (fuelFor source) source =
        some (some (stop, .ok (.list (is.map Instr.node)))) := by
  cases hread : readInstr source 0 with
  | none =>
    left
    rw [read_eq, interpret, attempt_eq, hread]
    rfl
  | some found =>
    obtain ⟨mid, i⟩ := found
    have hmid := readInstr_onward (Nat.zero_le _) hread
    obtain ⟨is, stop, hrounds, hchain⟩ := rounds_ends (attempt_eq source) hmid.2
      (show source.length - mid < source.length + 8 by omega)
    exact .inr ⟨i :: is, stop, by simp,
      chain_append.mpr ⟨mid, chain_of_readInstr hread, hchain⟩, read_of_rounds source hread hrounds⟩

/-- Instructions whose lexemes stand in a row up to the end are what is read. -/
theorem read_of_chain {is : List (Instr Token)} (hne : is ≠ [])
    (h : Chain source 0 (is.flatMap Instr.pieces) source.length) :
    Reading.read rooted (fuelFor source) source =
      some (some (source.length, .ok (.list (is.map Instr.node)))) := by
  obtain ⟨i, is, rfl⟩ := List.exists_cons_of_ne_nil hne
  obtain ⟨mid, hi, his⟩ := chain_append.mp h
  have hread := readInstr_of_chain hi
  have hmid := readInstr_onward (Nat.zero_le _) hread
  exact read_of_rounds source hread (rounds_of_chain (attempt_eq source) hmid.2 (by omega) his)

end Whole

/-! ### The parser -/

/-- The names of the rules. -/
def ruleNames : List String :=
  ["instructions", "alloca_instruction", "load_instruction", "store_instruction", "value",
    "identifier", "integer_literal", "llvm_type"]

theorem builder_ref (frame : Frame) : ∀ name ∈ ruleNames, Builder stage frame (ref name) := by
  intro name hname
  simp only [ruleNames, List.mem_cons, List.not_mem_nil, or_false] at hname
  rcases hname with rfl | rfl | rfl | rfl | rfl | rfl | rfl | rfl <;>
    exact .rule (by with_unfolding_all rfl) rfl

/-- The grammar is made of builder terms. -/
theorem stage_declarative : Declarative stage := by
  have hrules : stage.grammar.rules.map (·.1) = ruleNames := by with_unfolding_all rfl
  have hmethods : stage.factory.methods.map (·.1) = ["alloca_instruction", "load_instruction",
      "store_instruction", "identifier", "integer_literal", "type_syntax"] := by
    with_unfolding_all rfl
  refine ⟨fun name method body hmem => ?_, fun name _ _ hmem => ?_, fun name _ _ hmem => ?_⟩
  · have hbodies : stage.grammar.rules.map (fun r => r.2.2) =
        [[.rule none [.wrap .oneOrMore [oneInstr]]],
         [.rule none [.action "alloca_instruction" [ref "identifier", lit "=", lit "alloca",
           ref "llvm_type", lit ",", lit "align", pat "[0-9]+"]]],
         [.rule none [.action "load_instruction" [ref "identifier", lit "=", lit "load",
           ref "llvm_type", ref "identifier", lit ",", lit "align", pat "[0-9]+"]]],
         [.rule none [.action "store_instruction" [lit "store", ref "llvm_type", ref "value", lit ",",
           ref "llvm_type", ref "identifier", lit ",", lit "align", pat "[0-9]+"]]],
         [.rule none [.firstOf [ref "identifier", ref "integer_literal"]]],
         [.rule none [.action "identifier" [pat "[%@][-a-zA-Z$._0-9]+"]]],
         [.rule none [.action "integer_literal" [pat "-?[0-9]+"]]],
         [.rule none [.action "type_syntax" [pat "i[0-9]+", .wrap .optional [lit "*"]]]]] := by
      with_unfolding_all rfl
    have hlit : ∀ frame s, Builder stage frame (lit s) := fun _ _ => .token rfl
    have hpat : ∀ frame s, Builder stage frame (pat s) := fun _ _ => .pattern rfl
    have href := builder_ref
    simp only [ruleNames, List.forall_mem_cons] at href
    have hbody : body ∈ stage.grammar.rules.map (fun r => r.2.2) := List.mem_map_of_mem hmem
    rw [hbodies] at hbody
    simp only [List.mem_cons, List.not_mem_nil, or_false] at hbody
    rcases hbody with rfl | rfl | rfl | rfl | rfl | rfl | rfl | rfl
    · exact ⟨_, rfl, .wrap (.firstOf (by simp [href]))⟩
    · exact ⟨_, rfl, .action (by with_unfolding_all rfl) (by simp [href, hlit, hpat])⟩
    · exact ⟨_, rfl, .action (by with_unfolding_all rfl) (by simp [href, hlit, hpat])⟩
    · exact ⟨_, rfl, .action (by with_unfolding_all rfl) (by simp [href, hlit, hpat])⟩
    · exact ⟨_, rfl, .firstOf (by simp [href])⟩
    · exact ⟨_, rfl, .action (by with_unfolding_all rfl) (by simp [hpat])⟩
    · exact ⟨_, rfl, .action (by with_unfolding_all rfl) (by simp [hpat])⟩
    · exact ⟨_, rfl, .action (by with_unfolding_all rfl) (by simp [hpat, hlit, Builder.wrap])⟩
  · have hdots : ∀ name ∈ ruleNames, '.' ∉ name.toList := by decide
    exact hdots name (hrules ▸ List.mem_map_of_mem hmem)
  · have hdots : ∀ name ∈ ["alloca_instruction", "load_instruction", "store_instruction",
        "identifier", "integer_literal", "type_syntax"], '.' ∉ name.toList := by decide
    exact hdots name (hmethods ▸ List.mem_map_of_mem hmem)

/-- The parser can be built, and no more than 16 expressions stand inside one another in it. -/
theorem parser_within : ∃ parser, Ir.parser = .ok parser ∧ parser.within 16 = true := by
  have hshallow : (match Ir.parser with
      | .ok parser => parser.within 16
      | .error _ => false) = true := by decide +kernel
  cases hparser : Ir.parser with
  | error f => rw [hparser] at hshallow; cases hshallow
  | ok parser =>
    rw [hparser] at hshallow
    exact ⟨parser, rfl, hshallow⟩

section Parsing
variable {parser : Parser} (hparser : Ir.parser = .ok parser) (hshallow : parser.within 16 = true)
include hparser hshallow

/-- The parser answers what reading comes to. -/
theorem parseWithin_agrees {source : Source} {found : Reading Deferred}
    (h : Reading.read rooted (fuelFor source) source = some found) :
    Parser.Agrees source found (parser.parseWithin Parser.nestingLimit source).1 := by
  have hs : Declarative rooted.stage := stage_declarative
  exact Parser.agrees_of_within (Parser.meets_of_read hs hparser h) hshallow (by decide)

theorem parseSource_of_read {source : Source} {stop : Nat} {v : Value}
    (h : Reading.read rooted (fuelFor source) source = some (some (stop, .ok v))) :
    parser.parseSource source =
      if stop = source.length then .ok v else .error (.incomplete stop source.length) := by
  have hanswer : _ = _ := parseWithin_agrees hparser hshallow h
  rw [Parser.parseSource, hanswer]
  split <;> rfl

theorem parseSource_of_miss {source : Source}
    (h : Reading.read rooted (fuelFor source) source = some none) :
    ∃ line report, parser.parseSource source = .error (.unmatched line report) := by
  obtain ⟨line, report, hanswer⟩ := parseWithin_agrees hparser hshallow h
  exact ⟨line, report, by rw [Parser.parseSource, hanswer]; rfl⟩

/-- A text whose lexemes stand in a row up to its end is parsed to their instructions. -/
theorem parseText_of_chain {text : String} {is : List (Instr Token)} (hne : is ≠ [])
    (h : Chain (.ofString text) 0 (is.flatMap Instr.pieces) text.length) :
    parser.parseText text = .ok (.list (is.map Instr.node)) := by
  rw [← Source.length_ofString] at h
  rw [Parser.parseText, parseSource_of_read hparser hshallow (read_of_chain _ hne h), if_pos rfl]

/-- A text is refused, or its lexemes stand in a row up to its end. -/
theorem parseText_cases (text : String) :
    ((∃ line report, parser.parseText text = .error (.unmatched line report)) ∨
      ∃ stop, parser.parseText text = .error (.incomplete stop text.length)) ∨
    ∃ is, is ≠ [] ∧ Chain (.ofString text) 0 (is.flatMap Instr.pieces) text.length := by
  rcases read_ends (.ofString text) with h | ⟨is, stop, hne, hchain, h⟩
  · exact .inl (.inl (parseSource_of_miss hparser hshallow h))
  · have hanswer := parseSource_of_read hparser hshallow h
    by_cases hstop : stop = (Source.ofString text).length
    · subst hstop
      rw [Source.length_ofString] at hchain
      exact .inr ⟨is, hne, hchain⟩
    · rw [if_neg hstop, Source.length_ofString] at hanswer
      exact .inl (.inr ⟨_, hanswer⟩)

end Parsing

/-! ### Printing and parsing -/

/-- The instructions of a printed text, with the tokens that they have in it. -/
theorem exists_placed {d : List (Instr String)} {lead text : String} {gaps : List String}
    (h : Prints d lead gaps text) : ∃ is : List (Instr Token), is.map (Instr.map Token.text) = d ∧
      is.flatMap Instr.lexemes = tokensFrom lead (d.flatMap Instr.lexemes) gaps ∧ is ≠ [] ∧
      Chain (.ofString text) 0 (is.flatMap Instr.pieces) text.length := by
  obtain ⟨is, rfl, htokens⟩ :=
    Instr.exists_map_map_eq (map_text_tokensFrom lead h.length_gaps)
  have hne : is ≠ [] := by simpa using h.nonempty
  exact ⟨is, rfl, htokens, hne, (chain_iff_prints hne).mpr ⟨lead, gaps, h, htokens⟩⟩

/-- A text is printed in one way only. -/
theorem prints_unique {d d' : List (Instr String)} {lead lead' text : String}
    {gaps gaps' : List String} (h : Prints d lead gaps text) (h' : Prints d' lead' gaps' text) :
    d = d' ∧ lead = lead' ∧ gaps = gaps' := by
  obtain ⟨is, rfl, -, -, hchain⟩ := exists_placed h
  obtain ⟨is', rfl, -, -, hchain'⟩ := exists_placed h'
  rw [← Source.length_ofString] at hchain hchain'
  obtain rfl := chain_unique hchain hchain'
  exact ⟨rfl, gaps_unique h.length_gaps h'.length_gaps h.solid_lexemes h.blank_gaps h'.blank_gaps
    (h.written.symm.trans h'.written)⟩

/-- Parsing undoes printing, and accepts nothing else. The text that a description is printed as, with
any white space that keeps its lexemes apart, is parsed to the nodes of its instructions in order; their
fields hold the lexemes with their places, so that the tokens, joined, are the text without its white
space. A text that is accepted is printed from one description with one choice of gaps, and every other
text is not matched, or not to its end. -/
theorem parse_inverts_printing : ∃ parser, Ir.parser = .ok parser ∧
    (∀ d lead gaps text, Prints d lead gaps text → ∃ placed : List (Instr Token),
      placed.map (Instr.map Token.text) = d ∧
      placed.flatMap Instr.lexemes = tokensFrom lead (d.flatMap Instr.lexemes) gaps ∧
      parser.parseText text = .ok (.list (placed.map Instr.node)) ∧
      ∃ ts, tokensOfAll (placed.map Instr.node) = .ok ts ∧ String.join (ts.map Token.text) =
        String.ofList (text.toList.filter fun c => !Text.isSpace c)) ∧
    (∀ text v, parser.parseText text = .ok v →
      ∃! p : List (Instr String) × String × List String, Prints p.1 p.2.1 p.2.2 text) ∧
    ∀ text, (¬ ∃ d lead gaps, Prints d lead gaps text) →
      (∃ line report, parser.parseText text = .error (.unmatched line report)) ∨
      ∃ stop, parser.parseText text = .error (.incomplete stop text.length) := by
  obtain ⟨parser, hparser, hshallow⟩ := parser_within
  refine ⟨parser, hparser, fun d lead gaps text h => ?_, fun text v h => ?_, fun text h => ?_⟩
  · obtain ⟨is, hd, htokens, hne, hchain⟩ := exists_placed h
    refine ⟨is, hd, htokens, parseText_of_chain hparser hshallow hne hchain, _, tokensOfAll_nodes is, ?_⟩
    rw [htokens, map_text_tokensFrom lead h.length_gaps, h.join_lexemes]
  · rcases parseText_cases hparser hshallow text with hrefused | ⟨is, hne, hchain⟩
    · rcases hrefused with ⟨line, report, herror⟩ | ⟨stop, herror⟩ <;> rw [herror] at h <;> cases h
    · obtain ⟨lead, gaps, hprints, -⟩ := (chain_iff_prints hne).mp hchain
      refine ⟨⟨_, lead, gaps⟩, hprints, fun p hp => ?_⟩
      obtain ⟨hd, hlead, hgaps⟩ := prints_unique hp hprints
      exact Prod.ext hd (Prod.ext hlead hgaps)
  · rcases parseText_cases hparser hshallow text with hrefused | ⟨is, hne, hchain⟩
    · exact hrefused
    · obtain ⟨lead, gaps, hprints, -⟩ := (chain_iff_prints hne).mp hchain
      exact absurd ⟨_, lead, gaps, hprints⟩ h

/-- Two instructions whose lexemes touch wherever they may. -/
def touching : List (Instr String) :=
  [.store "store" ⟨"i32", none⟩ (.number "5") "," ⟨"i32", some "*"⟩ "%p" "," "align" "4",
    .load "%x" "=" "load" ⟨"i8", none⟩ "@g.1" "," "align" "1"]

theorem parse_inverts_printing_touching :
    Prints touching "\n" ["", " ", "", "", "", "", "", "", "", "\n", "", "", "", "", "", "", "", " "]
      "\nstorei32 5,i32*%p,align4\n%x=loadi8@g.1,align1 " ∧
    ∃ parser, Ir.parser = .ok parser ∧ ∃ placed : List (Instr Token),
      placed.map (Instr.map Token.text) = touching ∧
      parser.parseText "\nstorei32 5,i32*%p,align4\n%x=loadi8@g.1,align1 " =
        .ok (.list (placed.map Instr.node)) ∧
      ∃! p : List (Instr String) × String × List String, Prints p.1 p.2.1 p.2.2
        "\nstorei32 5,i32*%p,align4\n%x=loadi8@g.1,align1 " := by
  have hprints : Prints touching "\n"
      ["", " ", "", "", "", "", "", "", "", "\n", "", "", "", "", "", "", "", " "]
      "\nstorei32 5,i32*%p,align4\n%x=loadi8@g.1,align1 " :=
    ⟨by decide, by decide, by decide, by decide, by decide⟩
  obtain ⟨parser, hparser, hprinted, haccepted, -⟩ := parse_inverts_printing
  obtain ⟨placed, hplaced, -, hparsed, -⟩ := hprinted _ _ _ _ hprints
  exact ⟨hprints, parser, hparser, placed, hplaced, hparsed, haccepted _ _ hparsed⟩

end PegScribe.Ir
