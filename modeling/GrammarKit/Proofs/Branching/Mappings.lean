import GrammarKit.Proofs.Branching.Nested
import GrammarKit.Proofs.Comparison.Corresponding
import GrammarKit.Proofs.Comparison.Maintaining
import GrammarKit.Proofs.Growth

/-! # Mappings and what is consumed

What a parser consumes does not depend on its mapping: with another mapping it finds the same
derivations, in the same order and with the same remainders, and only the values differ. So where
only remainders count, as for the control flow of a repetition, for a negation or for a choice, a
mapping may as well be applied to what comes out in the end.

The parsers may be ambiguous, fail, raise errors, and change the store; the function that is mapped
has no side effects. That is asked of it for the values that are passed on to it, and in the stores
in which that happens, so there are a set of inputs, one of values and one of stores which uses of
the parser do not lead out of.
-/

namespace GrammarKit

open Eval (Maintains)

/-- Whether a function returns `w` for `v` in each of several stores, and has no side effects. -/
def Value.Returns (stores : Store → Prop) (f v w : Value) : Prop :=
  ∀ s, stores s → Deep fun n => (evaluator n).call f [v] s = .ok w s

/-- Sets that uses of a parser do not lead out of, as those of all values and stores: where it is
used on one of `inputs` in one of `stores`, the values that it has found are among `found`, those
that it passes on after its mapping are among `values`, and it leaves one of `inputs` and one of
`stores`. -/
structure Parser.KeepsTo (p : Parser) (inputs found values : Value → Prop)
    (stores : Store → Prop) : Prop where
  finds : ∀ n x, inputs x → Maintains stores ((evaluator n).process p x) fun ds =>
    ∀ d ∈ ds, found d.value ∧ inputs d.remainder
  unmapped : p.mapping = none → ∀ v, found v → values v
  mapped : ∀ g, p.mapping = some g → ∀ n v, found v →
    Maintains stores ((evaluator n).call g [v]) values

/-- Whether a value is one of `values` and another one is what `k` makes of it. -/
def Value.Sends (values : Value → Prop) (k : Value → Value) (v w : Value) : Prop :=
  values v ∧ w = k v

/-- Whether two lists of derivations differ in the values only, and those of the second one are what
`k` makes of those of the first one. -/
abbrev Derivation.Sends (values inputs : Value → Prop) (k : Value → Value) :
    List Derivation → List Derivation → Prop :=
  List.Forall₂ (Derivation.Related (Value.Sends values k) inputs)

section

variable {stores : Store → Prop} {inputs values found : Value → Prop} {f g v w x : Value}
  {k : Value → Value} {p p' : Parser} {s : Store} {ds es : List Derivation}

/-- Lists of which the second one is what a function makes of the first one. -/
theorem forall₂_eq_map_iff {α β : Type} {P : α → Prop} {φ : α → β} {as : List α} {bs : List β} :
    List.Forall₂ (fun a b => P a ∧ b = φ a) as bs ↔ bs = as.map φ ∧ ∀ a ∈ as, P a := by
  induction as generalizing bs with
  | nil => simp
  | cons a as ih =>
    constructor
    · rintro (_ | ⟨⟨holds, rfl⟩, others⟩)
      obtain ⟨rfl, all⟩ := ih.mp others
      exact ⟨rfl, List.forall_mem_cons.mpr ⟨holds, all⟩⟩
    · rintro ⟨rfl, all⟩
      obtain ⟨here, others⟩ := List.forall_mem_cons.mp all
      exact .cons ⟨here, rfl⟩ (ih.mpr ⟨rfl, others⟩)

theorem Derivation.related_sends_iff {d e : Derivation} :
    Derivation.Related (Value.Sends values k) inputs d e ↔
      (values d.value ∧ inputs d.remainder) ∧ e = ⟨k d.value, d.remainder⟩ := by
  obtain ⟨w, r⟩ := e
  constructor
  · rintro ⟨⟨holds, rfl⟩, rfl, left⟩
    exact ⟨⟨holds, left⟩, rfl⟩
  · rintro ⟨⟨holds, left⟩, same⟩
    cases same
    exact ⟨⟨holds, rfl⟩, rfl, left⟩

theorem Derivation.sends_iff : Derivation.Sends values inputs k ds es ↔
    es = withValues k ds ∧ ∀ d ∈ ds, values d.value ∧ inputs d.remainder := by
  have same : Derivation.Related (Value.Sends values k) inputs = fun d e =>
      (values d.value ∧ inputs d.remainder) ∧ e = ⟨k d.value, d.remainder⟩ :=
    funext₂ fun _ _ => propext Derivation.related_sends_iff
  rw [Derivation.Sends, same]
  exact forall₂_eq_map_iff

/-! ## Functions without side effects -/

/-- What returns something is a mapping. -/
theorem Value.Returns.toOption_eq (returns : f.Returns stores v w) (start : stores s) :
    f.toOption = some f := by
  cases f with
  | none =>
    obtain ⟨depth, called⟩ := returns s start
    cases called (depth + 1) (by omega)
  | _ => rfl

theorem Value.Returns.mono {stores' : Store → Prop} (returns : f.Returns stores v w)
    (fewer : ∀ t, stores' t → stores t) : f.Returns stores' v w :=
  fun t within => returns t (fewer t within)

/-- A function that returns something at some depth gives nothing else at any other one. -/
theorem Value.Returns.maintains {Q : Value → Prop} (returns : f.Returns stores v w) (holds : Q w)
    (n : Nat) : Maintains stores ((evaluator n).call f [v]) Q := by
  intro s u t start ran
  have lasting := Evaluator.lasts_call n f [v] s (by simp [ran])
  obtain ⟨depth, same⟩ := lasting.both (returns s start) fun m same called =>
    called.symm.trans same
  have here := (same depth (Nat.le_refl depth)).trans ran
  cases here
  exact ⟨start, holds⟩

theorem Evaluator.deep_mapValues (returns : ∀ d ∈ ds, f.Returns stores d.value (k d.value))
    (start : stores s) :
    Deep fun n => (evaluator n).mapValues f ds s = .ok (withValues k ds) s := by
  induction ds with
  | nil => exact .always fun _ => rfl
  | cons d ds ih =>
    obtain ⟨here, others⟩ := List.forall_mem_cons.mp returns
    refine (here s start).both (ih others) fun n called rest => ?_
    exact (Eval.bind_of_eq_ok called _).trans ((Eval.bind_of_eq_ok rest _).trans rfl)

namespace Corresponds

/-- Derivations as they are, and what a mapping makes of their values. -/
theorem pure_mapped {R : List Derivation → List Derivation → Prop}
    (returns : ∀ d ∈ ds, f.Returns stores d.value (k d.value)) (start : stores s)
    (related : R es (withValues k ds)) :
    Corresponds stores R (fun _ => Pure.pure es) fun ev =>
      match f.toOption with
      | none => Pure.pure ds
      | some f => ev.mapValues f ds := by
  cases ds with
  | nil => cases f.toOption <;> exact .pure related
  | cons d ds =>
    rw [(returns d List.mem_cons_self).toOption_eq start]
    exact .of_deep (fun n => Evaluator.lasts_mapValues n f _)
      (fun _ start => Evaluator.deep_mapValues returns start) related

/-- Where one parser finds what a function makes of the values that another one finds, that one
produces the same if the function is its mapping. -/
theorem produce_mapped (corresponds : Corresponds stores (Derivation.Sends values inputs k)
      (fun ev => ev.process p x) fun ev => ev.process p' x)
    (mapping : p.mapping = f.toOption) (unmapped : p'.mapping = none)
    (returns : ∀ v, values v → f.Returns stores v (k v)) (start : stores s) :
    Corresponds stores Eq (fun ev => ev.produce p' x) fun ev => ev.produce p x := by
  simp only [Evaluator.produce, mapping, unmapped]
  refine corresponds.symm.bind fun es ds related => ?_
  obtain ⟨rfl, all⟩ := Derivation.sends_iff.mp related
  exact .pure_mapped (fun d member => returns d.value (all d member).1) start rfl

/-- A composed function makes of a value what the second one makes of what the first one makes. -/
theorem call_composed (maintains : ∀ n, Maintains stores ((evaluator n).call g [v]) values)
    (returns : ∀ w, values w → f.Returns stores w (k w)) :
    Corresponds stores (Value.Sends values k) (fun ev => ev.call g [v])
      fun ev => ev.call (.function (.composed g f)) [v] := by
  have once : Corresponds stores (fun w w' => w' = w ∧ values w) (fun ev => ev.call g [v])
      fun ev => ev.call g [v] := .self (fun n => Evaluator.lasts_call n g [v]) maintains
  have applied (w w' : Value) (related : w' = w ∧ values w) :
      Corresponds stores (Value.Sends values k) (fun _ => Pure.pure w)
        fun ev => ev.call f [w'] := by
    obtain ⟨rfl, holds⟩ := related
    exact .of_deep (fun n => Evaluator.lasts_call n f [w']) (returns w' holds) ⟨holds, rfl⟩
  have sequence : Corresponds stores (Value.Sends values k) (fun ev => ev.call g [v] >>= Pure.pure)
      fun ev => ev.call g [v] >>= fun w => ev.call f [w] := once.bind applied
  simp only [bind_pure] at sequence
  exact (sequence.symm.deeper rfl fun _ => rfl).symm

end Corresponds

/-! ## The mapped parser -/

theorem Parser.map_eq (copied : p.copy = p) (f : Value) :
    p.map f = .node p.shape (match p.mapping with
      | none => f.toOption
      | some g => some (.function (.composed g f))) p.name :=
  congrArg (fun q : Parser => Parser.node q.shape _ p.name) copied

/-- A mapping is not shown. -/
theorem Parser.display_map (copied : p.copy = p) (f : Value) (results : Results) (fuel : Nat) :
    (p.map f).toValue.display results fuel = p.toValue.display results fuel := by
  rw [Parser.map_eq copied]
  obtain ⟨shape, mapping, name⟩ := p
  cases shape <;> cases fuel <;> rfl

namespace Parser.KeepsTo

variable {I : Store → Prop} (keeps : p.KeepsTo inputs found values stores)

include keeps

/-- With one more mapping a parser processes its input as without it. -/
theorem process_map (copied : p.copy = p) (persists : Store.Persists I)
    (defined : ∀ t, I t → p.IsDefined t) (f : Value) (read : inputs x) :
    Corresponds (fun t => stores t ∧ I t)
      (fun ds ds' => ds' = ds ∧ ∀ d ∈ ds, found d.value ∧ inputs d.remainder)
      (fun ev => ev.process p x) fun ev => ev.process (p.map f) x := by
  have once : Corresponds (fun t => stores t ∧ I t)
      (fun ds ds' => ds' = ds ∧ ∀ d ∈ ds, found d.value ∧ inputs d.remainder)
      (fun ev => ev.process p x) fun ev => ev.process p x :=
    .self (fun n => Evaluator.lasts_process n p x) fun n =>
      (keeps.finds n x read).both (persists.process n p x)
  refine once.congr (fun _ _ _ => rfl) fun n t start => ?_
  rw [Parser.map_eq copied]
  obtain ⟨shape, mapping, name⟩ := p
  exact Evaluator.process_congr (defined t start.2) _ x

/-- With one more mapping a parser gives the same derivations but for the values, which are those
that the mapping makes of the values without it. -/
theorem parse_map (quiet : Store.Quiet stores) (copied : p.copy = p)
    (persists : Store.Persists I) (defined : ∀ t, I t → p.IsDefined t)
    (returns : ∀ v, values v → f.Returns stores v (k v)) (start : stores s ∧ I s)
    (read : inputs x) :
    Corresponds (fun t => stores t ∧ I t) (Derivation.Sends values inputs k)
      (fun ev => ev.parse p x) fun ev => ev.parse (p.map f) x := by
  have returns' (v : Value) (holds : values v) : f.Returns (fun t => stores t ∧ I t) v (k v) :=
    (returns v holds).mono fun _ => And.left
  have actual : (p.map f).isForeign = p.isForeign := by
    rw [Parser.map_eq copied]
    obtain ⟨shape, mapping, name⟩ := p
    cases shape <;> rfl
  refine .parse (persists.quiet quiet) actual ?_ (fun _ _ related => related.length_eq.symm) ?_
  · intro results fuel
    rw [Parser.map_eq copied]
    obtain ⟨shape, mapping, name⟩ := p
    cases fuel <;> rfl
  refine (keeps.process_map copied persists defined f read).bind ?_
  rintro _ ds ⟨rfl, all⟩
  rw [Parser.map_eq copied]
  cases mapping : p.mapping with
  | none =>
    have passed : ∀ d ∈ ds, values d.value ∧ inputs d.remainder := fun d member =>
      (all d member).imp_left (keeps.unmapped mapping d.value)
    refine .pure_mapped (fun d member => returns' d.value (passed d member).1) start ?_
    exact Derivation.sends_iff.mpr ⟨rfl, passed⟩
  | some g =>
    refine .mapValues (fun v holds => ?_) ds all
    exact .call_composed (fun n => (keeps.mapped g mapping n v holds).both
      (persists.call n g [v])) returns'

end Parser.KeepsTo

/-! ## Mappings inside combinators -/

/-- Parsers are shown alike if their parts differ in mappings only. -/
theorem Parser.display_node {shape shape' : Shape} {mapping mapping' name : Option Value}
    (alike : ∀ inner : Value → Except Stop (List Char),
      (∀ (p : Parser) f, p.copy = p → inner (p.map f).toValue = inner p.toValue) →
        Value.showShape inner shape' = Value.showShape inner shape)
    (results : Results) (fuel : Nat) :
    (Value.parser (.node shape' mapping' name)).display results fuel =
      (Value.parser (.node shape mapping name)).display results fuel := by
  cases fuel with
  | zero =>
    have same := alike (fun _ => .error .outOfFuel) fun _ _ _ => rfl
    simp only [Value.display, Value.showWith, same]
  | succ n =>
    have same := alike (Value.display results n) fun p f copied =>
      p.display_map copied f results n
    simp only [Value.display, Value.showWith, same]

/-- What a list of values becomes if each of them is replaced. -/
def Value.each (k : Value → Value) : Value → Value
  | .list vs => .list (vs.map k)
  | v => v

/-- A list of replaced values is the list of the values, each of them replaced. -/
theorem corresponds_accumulateValues {vs ws : List Value}
    (related : List.Forall₂ (Value.Sends values k) vs ws) :
    Except.Corresponds
      (Value.Sends (fun v => ∃ vs, v = .list vs ∧ ∀ v ∈ vs, values v) (Value.each k))
      (accumulateValues (.strategy .sequence) vs) (accumulateValues (.strategy .sequence) ws) := by
  obtain ⟨rfl, all⟩ := forall₂_eq_map_iff.mp related
  exact .ok ⟨⟨vs, rfl, all⟩, rfl⟩

namespace Corresponds

variable {F : Value} {q : Parser}

/-- Where the parts of a parser are mapped and so it finds mapped values, the parser may as well be
mapped as a whole. -/
theorem parse_mapped {shape shape' : Shape} (quiet : Store.Quiet stores)
    (corresponds : Corresponds stores (Derivation.Sends values inputs k)
      (fun ev => ev.process (.node shape f.toOption none) x)
      fun ev => ev.process (.ofShape shape') x)
    (actual : (Parser.ofShape shape).isForeign = (Parser.ofShape shape').isForeign)
    (alike : ∀ inner : Value → Except Stop (List Char),
      (∀ (p : Parser) f, p.copy = p → inner (p.map f).toValue = inner p.toValue) →
        Value.showShape inner shape = Value.showShape inner shape')
    (returns : ∀ v, values v → f.Returns stores v (k v)) (start : stores s) :
    Corresponds stores Eq (fun ev => ev.parse (.ofShape shape') x)
      fun ev => ev.parse (.node shape f.toOption none) x := by
  have same : (Parser.node shape f.toOption none).isForeign = (Parser.ofShape shape').isForeign :=
    .trans (by cases shape <;> rfl) actual
  exact .parse quiet same (Parser.display_node alike) (fun _ _ same => same ▸ rfl)
    (corresponds.produce_mapped rfl rfl returns start)

/-- Which path a repetition follows depends on the remainders only. -/
theorem many_map (quiet : Store.Quiet stores) (copied : p.copy = p)
    (steps : ∀ v, inputs v → Corresponds stores (Derivation.Sends values inputs k)
      (fun ev => ev.parse p v) fun ev => ev.parse (p.map f) v)
    (gathers : ∀ vs, (∀ v ∈ vs, values v) → F.Returns stores (.list vs) (.list (vs.map k)))
    (start : stores s) (read : inputs x) :
    Corresponds stores Eq (fun ev => ev.parse ((p.map f).many .sequence) x)
      fun ev => ev.parse ((p.many .sequence).map F) x := by
  have copied' : (p.many .sequence).copy = p.many .sequence := by
    simp only [Parser.many, Parser.ofShape, Parser.copy, Parser.copyShape, copied]
  have mapped : (p.many .sequence).map F =
      .node (.many p (.strategy .sequence)) F.toOption none := Parser.map_eq copied' F
  have repeated : Corresponds stores
      (Derivation.Sends (fun v => ∃ vs, v = .list vs ∧ ∀ v ∈ vs, values v) inputs (Value.each k))
      (fun ev => ev.process (.node (.many p (.strategy .sequence)) F.toOption none) x)
      fun ev => ev.process ((p.map f).many .sequence) x :=
    .repeatParser steps (fun _ _ => corresponds_accumulateValues) read
  rw [mapped]
  refine .parse_mapped quiet repeated rfl (fun inner alike => ?_) ?_ start
  · simp only [Value.showShape, alike p f copied]
  · rintro _ ⟨vs, rfl, all⟩
    exact gathers vs all

/-- Whether a parser fails does not depend on the values. -/
theorem negate_map (quiet : Store.Quiet stores) (copied : p.copy = p)
    (parsed : Corresponds stores (Derivation.Sends values inputs k) (fun ev => ev.parse p x)
      fun ev => ev.parse (p.map f) x) :
    Corresponds stores Eq (fun ev => ev.parse (p.map f).negate x)
      fun ev => ev.parse p.negate x := by
  refine .parse quiet rfl (Parser.display_node fun inner alike => ?_)
    (fun _ _ same => same ▸ rfl) ?_
  · simp only [Value.showShape, alike p f copied]
  · simp only [Evaluator.produce_of_mapping_eq_none (p := Parser.negate _) rfl]
    refine parsed.symm.bind fun ds ds' related => ?_
    rw [isEmpty_eq_of_forall₂ related]
    exact .ite (fun _ => .pure rfl) fun _ => .pure rfl

/-- Which alternative is chosen does not depend on the values. -/
theorem orElse_map (quiet : Store.Quiet stores) (copied : p.copy = p) (copied' : q.copy = q)
    (first : Corresponds stores (Derivation.Sends values inputs k) (fun ev => ev.parse p x)
      fun ev => ev.parse (p.map f) x)
    (second : Corresponds stores (Derivation.Sends values inputs k) (fun ev => ev.parse q x)
      fun ev => ev.parse (q.map f) x)
    (returns : ∀ v, values v → f.Returns stores v (k v)) (start : stores s) :
    Corresponds stores Eq (fun ev => ev.parse ((p.map f).orElse [.parser (q.map f)]) x)
      fun ev => ev.parse ((p.orElse [.parser q]).map f) x := by
  have copied'' : (p.orElse [.parser q]).copy = p.orElse [.parser q] := by
    simp only [Parser.orElse, Parser.ofShape, Parser.copy, Parser.copyShape, Parser.copyAll,
      List.map_cons, List.map_nil, Parser.asParser, copied, copied']
  have mapped : (p.orElse [.parser q]).map f = .node (.choice [p, q]) f.toOption none :=
    Parser.map_eq copied'' f
  have each : ∀ r ∈ [p, q], Corresponds stores (Derivation.Sends values inputs k)
      (fun ev => ev.parse r x) fun ev => ev.parse (r.map f) x :=
    List.forall_mem_cons.mpr ⟨first, List.forall_mem_singleton.mpr second⟩
  have chosen : Corresponds stores (Derivation.Sends values inputs k)
      (fun ev => ev.process (.node (.choice [p, q]) f.toOption none) x)
      fun ev => ev.process ((p.map f).orElse [.parser (q.map f)]) x := .firstOf each
  rw [mapped]
  refine .parse_mapped quiet chosen rfl (fun inner alike => ?_) returns start
  simp only [Value.showShape, List.map_cons, List.map_nil, Parser.asParser, List.mapM_cons,
    alike p f copied, alike q f copied']

end Corresponds

/-- Mappings never influence what is consumed. For a function `f` without side effects, to repeat a
parser that is mapped by it is to map the lists of repeated values by the function `F` that applies
`f` to every entry; to negate the mapped parser is to negate the parser; and to choose between two
mapped parsers is to map their choice. All runs are the same, whatever they come to: the derivations
in their order or the error, and the store that is left, with the debug messages. -/
theorem mappings_consume_nothing {F : Value} (quiet : Store.Quiet stores)
    (keeps : p.KeepsTo inputs found values stores) (copied : p.copy = p)
    (defined : p.IsDefined s) (returns : ∀ v, values v → f.Returns stores v (k v))
    (gathers : ∀ vs, (∀ v ∈ vs, values v) → F.Returns stores (.list vs) (.list (vs.map k)))
    (start : stores s) (read : inputs x) (r : Except Error (List Derivation)) (t : Store) :
    (((p.map f).many .sequence).Ends x s r t ↔ ((p.many .sequence).map F).Ends x s r t) ∧
    ((p.map f).negate.Ends x s r t ↔ p.negate.Ends x s r t) ∧
    ∀ q found', q.KeepsTo inputs found' values stores → q.copy = q → q.IsDefined s →
      (((p.map f).orElse [.parser (q.map f)]).Ends x s r t ↔
        ((p.orElse [.parser q]).map f).Ends x s r t) := by
  have one := p.persists_isDefined
  have here : stores s ∧ p.IsDefined s := ⟨start, defined⟩
  have steps (v : Value) (inside : inputs v) :=
    keeps.parse_map quiet copied one (fun _ holds => holds) returns here inside
  refine ⟨?_, ?_, fun q found' keeps' copied' defined' => ?_⟩
  · exact (Corresponds.many_map (one.quiet quiet) copied steps
      (fun vs all => (gathers vs all).mono fun _ => And.left) here read).ends_iff here
  · exact (Corresponds.negate_map (one.quiet quiet) copied (steps x read)).ends_iff here
  · have two := one.both q.persists_isDefined
    have here : stores s ∧ p.IsDefined s ∧ q.IsDefined s := ⟨start, defined, defined'⟩
    have first := keeps.parse_map quiet copied two (fun _ => And.left) returns here read
    have second := keeps'.parse_map quiet copied' two (fun _ => And.right) returns here read
    exact (Corresponds.orElse_map (two.quiet quiet) copied copied' first second
      (fun v holds => (returns v holds).mono fun _ => And.left) here).ends_iff here

end

namespace Mappings

/-- Written as a function: a list with one more entry. -/
def append : Value :=
  .function (.closure [⟨"entries", .standard, none⟩, ⟨"v", .standard, none⟩]
    (.apply (.operator .add) [.variable "entries", .apply (.operator .list) [.variable "v"]]) [])

/-- A value after the function that appends it to a list. -/
def paired : Value :=
  .function (.closure [⟨"v", .standard, none⟩]
    (.apply (.operator .tuple) [.variable "append", .variable "v"]) [("append", append)])

/-- The second entry. -/
def second : Value :=
  .function (.closure [⟨"v", .standard, none⟩]
    (.apply (.operator .index) [.variable "v", .literal (.int 1)]) [])

/-- The second entries of pairs, each of them appended by the first entry. -/
def seconds : Value := .function (.fold false (.list []))

def isPaired (v : Value) : Prop := ∃ cs, v = .tuple [append, .text cs]

def secondOf : Value → Value
  | .tuple [_, w] => w
  | v => v

/-- One character or two, in pairs. -/
def pairs : Parser := Nested.oneOrTwo.map paired

theorem paired_returns (cs : List Char) :
    paired.Returns (fun _ => True) (.text cs) (.tuple [append, .text cs]) := by
  refine fun s _ => ⟨4, fun n deep => ?_⟩
  obtain ⟨n, rfl⟩ : ∃ k, n = k + 4 := ⟨n - 4, by omega⟩
  rfl

theorem second_returns (v : Value) (holds : isPaired v) :
    second.Returns (fun _ => True) v (secondOf v) := by
  obtain ⟨cs, rfl⟩ := holds
  refine fun s _ => ⟨4, fun n deep => ?_⟩
  obtain ⟨n, rfl⟩ : ∃ k, n = k + 4 := ⟨n - 4, by omega⟩
  rfl

theorem foldLeft_append (vs : List Value) (all : ∀ v ∈ vs, isPaired v) (n : Nat) (s : Store) :
    ∀ ws, (evaluator (n + 5)).foldLeft (.list ws) vs s = .ok (.list (ws ++ vs.map secondOf)) s := by
  induction vs with
  | nil =>
    intro ws
    simp only [List.map_nil, List.append_nil]
    rfl
  | cons v vs ih =>
    intro ws
    obtain ⟨⟨cs, rfl⟩, others⟩ := List.forall_mem_cons.mp all
    have step : (evaluator (n + 5)).foldStep (.list ws) (.tuple [append, .text cs]) s =
      .ok (.list (ws ++ [.text cs])) s := rfl
    rw [Evaluator.foldLeft, Eval.bind_of_eq_ok step, ih others, List.append_assoc]
    rfl

theorem seconds_returns (vs : List Value) (all : ∀ v ∈ vs, isPaired v) :
    seconds.Returns (fun _ => True) (.list vs) (.list (vs.map secondOf)) := by
  refine fun s _ => ⟨6, fun n deep => ?_⟩
  obtain ⟨n, rfl⟩ : ∃ k, n = k + 6 := ⟨n - 6, by omega⟩
  exact foldLeft_append vs all n s []

theorem keepsTo_pairs : pairs.KeepsTo Parser.endsOfAbc (fun v => ∃ cs, v = .text cs) isPaired
    fun _ => True where
  finds n x read s ds t _ ran := by
    have found : (evaluator n).process pairs x s = .ok (Parser.oneOrTwo x) s := by
      rcases read with rfl | rfl | rfl | rfl <;> rfl
    rw [found] at ran
    cases ran
    refine ⟨trivial, ?_⟩
    rcases read with rfl | rfl | rfl | rfl <;> simp [Parser.oneOrTwo, Parser.endsOfAbc]
  unmapped := nofun
  mapped := by
    rintro _ ⟨⟩ n _ ⟨cs, rfl⟩
    exact (paired_returns cs).maintains ⟨cs, rfl⟩ n

theorem keepsTo_zero : Parser.zero.KeepsTo Parser.endsOfAbc (fun _ => False) isPaired
    fun _ => True where
  finds _ _ _ := .pure (List.forall_mem_nil _)
  unmapped _ _ := False.elim
  mapped := nofun

theorem enumerates_second : (Effects.messages .initial).Enumerates Parser.endsOfAbc
    Parser.endsOfAbc (pairs.map second) Parser.oneOrTwo where
  yields := by
    intro v member
    have produced : (Effects.messages .initial).Settles
        (fun ev => ev.produce (pairs.map second) v) (.ok (Parser.oneOrTwo v)) := by
      rcases member with rfl | rfl | rfl | rfl <;> exact .of_deep 6 fun _ _ => rfl
    have used := Effects.settles_use rfl (.of_quiet rfl) (.of_quiet rfl) produced
    exact ⟨.of_quiet rfl, .of_quiet rfl, used.deeper fun _ => rfl⟩
  leaves := (Effects.enumerates_oneOrTwo (b := .messages .initial) rfl).leaves

end Mappings

open Mappings in
/-- Pairs of a function and a text, and the second entries of these. -/
theorem mappings_consume_nothing_pairs :
    ((pairs.many .sequence).map seconds).Ends (.text ['a', 'b', 'c']) .initial
      (.ok [⟨.list [.text ['a'], .text ['b'], .text ['c']], .text []⟩,
        ⟨.list [.text ['a'], .text ['b', 'c']], .text []⟩,
        ⟨.list [.text ['a', 'b'], .text ['c']], .text []⟩]) .initial ∧
    (pairs.map second).negate.Ends (.text ['a', 'b', 'c']) .initial (.ok []) .initial ∧
    ((pairs.map second).orElse [.parser (Parser.zero.map second)]).Ends (.text ['a', 'b', 'c'])
      .initial (.ok [⟨.text ['a'], .text ['b', 'c']⟩, ⟨.text ['a', 'b'], .text ['c']⟩])
      .initial := by
  have start : Parser.endsOfAbc (.text ['a', 'b', 'c']) := .inl rfl
  have alike := mappings_consume_nothing (s := .initial) (fun _ _ _ => trivial) keepsTo_pairs rfl
    nofun second_returns seconds_returns trivial start
  have repeated := enumerates_second.yields_many
    (Effects.measures_endsOfAbc Store.initial.results) (.strategy .sequence) start
  rw [repeated_sequence, ← apply_ite] at repeated
  refine ⟨(alike _ _).1.mp ?_, (alike _ _).2.1.mpr ⟨8, rfl⟩, ?_⟩
  · rw [← Nested.repetitions_oneOrTwo]
    exact .of_yields rfl repeated
  · exact ((alike _ _).2.2 .zero _ keepsTo_zero rfl nofun).mpr ⟨9, rfl⟩

/-! ## A function that looks at what a parser changes -/

open Eval (bind_of_eq_ok readResults_bind lift_bind)

section

variable {step : Value → Eval (List Derivation)} {finish : List Value → Except Error Value}
  {budget : Nat} {path : Path} {rest : List Path} {out : List Derivation} {d : Derivation}
  {s t : Store}

/-- A path that a step takes further in one way only. -/
theorem explore_onward (next : Path) (opened : path.height ≠ 0)
    (found : step path.remainder s = .ok [d] t) (extended : path.extend t.results d = .ok next)
    (lower : next.height < path.height) :
    explore step finish budget (path :: rest) out s =
      explore step finish budget (next :: rest) out t := by
  have all : path.extendAll t.results [d] = .ok [next] := by
    rw [Path.extendAll, List.mapM_cons, extended]
    rfl
  have low : ∀ p ∈ [next], p.height < path.height := List.forall_mem_singleton.mpr lower
  rw [explore, if_neg opened, bind_of_eq_ok found, if_neg (by simp), readResults_bind,
    lift_bind all, dif_pos low]
  rfl

/-- A path that a step takes no further. -/
theorem explore_stopped {v : Value} (opened : path.height ≠ 0)
    (failed : step path.remainder s = .ok [] t) (further : path.values ≠ [])
    (finished : finish path.values.reverse = .ok v) :
    explore step finish budget [path] out s = .ok (out.reverse ++ [⟨v, path.remainder⟩]) t := by
  rw [explore, if_neg opened, bind_of_eq_ok failed, if_pos List.isEmpty_nil,
    if_neg (by simpa using further), lift_bind finished, explore]
  simp
  rfl

end

namespace Mappings

/-- A parser of one item, which it pushes onto the result list at 0; that is its value. -/
def pushing : Parser :=
  Parser.item.bind (.function (.closure [⟨"v", .standard, none⟩]
    (.apply (.method .push) [.variable "entries", .variable "v", .literal (.text [])])
    [("entries", .result 0)])) (.bool false)

/-- The length of what it is given. -/
def length : Value := Parser.operatorOf .length

/-- The lengths of the first two entries. -/
def lengths : Value :=
  let entry (i : Int) : Term := .apply (.operator .index) [.variable "vs", .literal (.int i)]
  .function (.closure [⟨"vs", .standard, none⟩]
    (.apply (.operator .list) [.apply (.operator .length) [entry 0],
      .apply (.operator .length) [entry 1]]) [])

/-- The store with one result list, which holds the characters of a text. -/
def holding (cs : List Char) : Store :=
  { Store.initial with results := { lists := #[cs.map fun c => ⟨.text [c], .text []⟩] } }

/-- A step that takes a text apart, twice, and then fails. -/
theorem repeat_twice {step : Value → Eval (List Derivation)} {budget : Nat} {v w : Value}
    {s t u last : Store} (first : step (.text ['a', 'b']) s = .ok [⟨v, .text ['b']⟩] t)
    (second : step (.text ['b']) t = .ok [⟨w, .text []⟩] u)
    (ended : step (.text []) u = .ok [] last) :
    repeatParser step (.strategy .sequence) budget (.text ['a', 'b']) s =
      .ok [⟨.list [v, w], .text []⟩] last := by
  rw [repeatParser, readResults_bind]
  have start : (Path.start s.results (.text ['a', 'b'])).height = 3 := rfl
  rw [explore_onward ⟨[v], .text ['b'], 2⟩ (by simp [start]) first rfl (by simp [start]),
    explore_onward ⟨[w, v], .text [], 1⟩ (by simp) second rfl (by simp),
    explore_stopped (by simp) ended (by simp) (v := .list [v, w]) rfl]
  rfl

/-- While no messages are recorded, the values of what is processed are mapped, and that is all. -/
theorem parse_of_process {n : Nat} {p : Parser} {x : Value} {s t : Store} {ds : List Derivation}
    (quiet : s.debug = false) (actual : p.isForeign = false)
    (processed : (evaluator n).process p x s = .ok ds t) :
    (evaluator (n + 1)).parse p x s =
      (match p.mapping with
        | none => pure ds
        | some f => (evaluator n).mapValues f ds : Eval _) t := by
  have read : (get : Eval Store) s = .ok s s := rfl
  have produced : (evaluator n).produce p x s = (match p.mapping with
        | none => pure ds
        | some f => (evaluator n).mapValues f ds : Eval _) t := bind_of_eq_ok processed _
  change (evaluator n).use p x s = _
  rw [Evaluator.use, if_neg (by simp [actual]), bind_of_eq_ok read, if_neg (by simp [quiet]),
    produced]

theorem ends_pushing_mapped :
    ((pushing.map length).many .sequence).Ends (.text ['a', 'b']) (holding [])
      (.ok [⟨.list [.int 1, .int 2], .text []⟩]) (holding ['a', 'b']) := by
  have processed : (evaluator 8).process ((pushing.map length).many .sequence) (.text ['a', 'b'])
      (holding []) = .ok [⟨.list [.int 1, .int 2], .text []⟩] (holding ['a', 'b']) :=
    repeat_twice (t := holding ['a']) (u := holding ['a', 'b']) rfl rfl rfl
  exact ⟨9, parse_of_process rfl rfl processed⟩

theorem ends_mapped_pushing :
    ((pushing.many .sequence).map lengths).Ends (.text ['a', 'b']) (holding [])
      (.ok [⟨.list [.int 2, .int 2], .text []⟩]) (holding ['a', 'b']) := by
  have processed : (evaluator 8).process ((pushing.many .sequence).map lengths) (.text ['a', 'b'])
      (holding []) = .ok [⟨.list [.result 0, .result 0], .text []⟩] (holding ['a', 'b']) :=
    repeat_twice (t := holding ['a']) (u := holding ['a', 'b']) rfl rfl rfl
  exact ⟨9, (parse_of_process rfl rfl processed).trans rfl⟩

end Mappings

open Mappings in
/-- A function without side effects that reads what the parser changes: it is called while the
repetition goes on in one case, and after it in the other one, and does not return the same. -/
theorem mappings_matter_to_readers :
    (∀ n v s, Eval.afterwards ((evaluator n).call length [v] s) = s) ∧
    (∀ n s, (evaluator (n + 1)).call length [.result 0] s =
      .ok (.int (s.results.read 0).length) s) ∧
    (∀ n v w s, (evaluator (n + 5)).call lengths [.list [v, w]] s = (do
      let k ← (evaluator (n + 5)).call length [v]
      let l ← (evaluator (n + 5)).call length [w]
      return .list [k, l] : Eval Value) s) ∧
    ((pushing.map length).many .sequence).Ends (.text ['a', 'b']) (holding [])
      (.ok [⟨.list [.int 1, .int 2], .text []⟩]) (holding ['a', 'b']) ∧
    ¬ ((pushing.many .sequence).map lengths).Ends (.text ['a', 'b']) (holding [])
      (.ok [⟨.list [.int 1, .int 2], .text []⟩]) (holding ['a', 'b']) := by
  refine ⟨fun n v s => ?_, fun n s => rfl, fun n v w s => ?_, ends_pushing_mapped, fun ends => ?_⟩
  · cases n with
    | zero => rfl
    | succ n => cases v <;> rfl
  · cases v <;> first | rfl | cases w <;> rfl
  · cases (ends.unique ends_mapped_pushing).1

end GrammarKit
