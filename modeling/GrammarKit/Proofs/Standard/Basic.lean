import GrammarKit.Proofs.Sequence
import GrammarKit.Proofs.Use
import GrammarKit.Proofs.Within.Basic

/-! # Standard parsers

A parser is standard if it is put together from the eight basic variants: it neither splits its
input at given sizes nor emits given pairs, and no part of it does, down to the values in it. What
a standard value refers to is told by a `Reach`: the functions written in terms that may occur in
it, the cells of its lazy parsers and the copies that there are of these, and its result lists. The
store is standard as far as it is within reach; parsers of other kinds may be kept elsewhere.

Of a written function nothing is known but what it gives: `Reach.Kept` asks that calls with
standard arguments give standard values and keep the store standard. The steps of the library's
own combinators are functions too; they are standard if what they hold is.
-/

namespace GrammarKit

/-- What standard values may refer to, and the global variables meanwhile. Of a lazy parser there
may be copies with the mappings and names that `copy` tells. -/
structure Reach where
  written : Callback → Prop
  cell : Nat → Prop
  copy : Nat → Option Value → Option Value → Prop
  result : Nat → Prop
  globals : Scope

/-- Whether a parser of some shape may have a mapping and a name: if it is lazy, as a copy within
reach. -/
@[simp] def Reach.Copy (r : Reach) : Shape → Option Value → Option Value → Prop
  | .lazy address, mapping, name => r.copy address mapping name
  | _, _, _ => True

variable (r : Reach)

mutual

/-- Whether a value is standard. -/
@[simp] def Value.Standard : Value → Prop
  | .list vs => Value.AllStandard vs
  | .tuple vs => Value.AllStandard vs
  | .derivation v w => v.Standard ∧ w.Standard
  | .result address => r.result address
  | .cell address => r.cell address
  | .parser p => p.Standard
  | .function f => f.Standard
  | _ => True

/-- Whether all of several values are standard. -/
@[simp] def Value.AllStandard : List Value → Prop
  | [] => True
  | v :: vs => v.Standard ∧ Value.AllStandard vs

/-- Whether a value is standard if it is there. -/
@[simp] def Value.OptionStandard : Option Value → Prop
  | Option.none => True
  | some v => v.Standard

/-- Whether a parser is standard, with its mapping and its name. -/
@[simp] def Parser.Standard : Parser → Prop
  | .node shape mapping name =>
    shape.Standard ∧ Value.OptionStandard mapping ∧ Value.OptionStandard name ∧
      r.Copy shape mapping name

/-- Whether all of several parsers are standard. -/
@[simp] def Parser.AllStandard : List Parser → Prop
  | [] => True
  | p :: ps => p.Standard ∧ Parser.AllStandard ps

/-- Whether a shape is one of the basic variants, with standard parts. A place for a parser that
holds something else is none of its own: to use it is an error. -/
@[simp] def Shape.Standard : Shape → Prop
  | .unit v => v.Standard
  | .zero => True
  | .item => True
  | .negation p => p.Standard
  | .bind p next always => p.Standard ∧ next.Standard ∧ always.Standard
  | .choice ps => Parser.AllStandard ps
  | .many p accumulate => p.Standard ∧ accumulate.Standard
  | .lazy address => r.cell address
  | .lazyOver v => v.Standard
  | .splits _ => False
  | .emit _ => False
  | .foreign v => v.Standard

/-- Whether a function is within reach, if it is written in a term, or holds only standard parts. -/
@[simp] def Callback.Standard : Callback → Prop
  | .closure parameters body scope => r.written (.closure parameters body scope)
  | .primitive _ => True
  | .adapted f count => f.Standard ∧ count.Standard
  | .composed f g => f.Standard ∧ g.Standard
  | .test condition => condition.Standard
  | .equals v => v.Standard
  | .oneOf members _ => Value.AllStandard members
  | .constant v => v.Standard
  | .spellRest p expected allowShort => p.Standard ∧ expected.Standard ∧ allowShort.Standard
  | .spellJoin expected allowShort head => expected.Standard ∧ allowShort.Standard ∧ head.Standard
  | .listRest p => p.Standard
  | .listJoin v => v.Standard
  | .body p q => p.Standard ∧ q.Standard
  | .close p => p.Standard
  | .operands p q _ => p.Standard ∧ q.Standard
  | .fold _ v => v.Standard
  | .operand p => p.Standard
  | .pair v => v.Standard
  | .skipSpace => True
  | .wordRest => True
  | .wordJoin v => v.Standard
  | .digits => True
  | .signed v => v.Standard

end

variable {r}

@[simp] theorem Value.allStandard_iff (vs : List Value) :
    Value.AllStandard r vs ↔ ∀ v ∈ vs, v.Standard r := by
  induction vs with
  | nil => simp [Value.AllStandard]
  | cons v vs ih => simp [Value.AllStandard, ih]

@[simp] theorem Parser.allStandard_iff (ps : List Parser) :
    Parser.AllStandard r ps ↔ ∀ p ∈ ps, p.Standard r := by
  induction ps with
  | nil => simp [Parser.AllStandard]
  | cons p ps ih => simp [Parser.AllStandard, ih]

@[simp] theorem Value.optionStandard_none : Value.OptionStandard r Option.none := trivial

@[simp] theorem Value.optionStandard_some (v : Value) :
    Value.OptionStandard r (some v) ↔ v.Standard r := Iff.rfl

/-- Whether the value and the remainder of a derivation are standard. -/
def Derivation.Standard (r : Reach) (d : Derivation) : Prop :=
  d.value.Standard r ∧ d.remainder.Standard r

theorem Derivation.Standard.toValue {d : Derivation} (standard : d.Standard r) :
    d.toValue.Standard r := standard

/-- Whether there may be any result lists in standard values. -/
def Reach.Lists (r : Reach) : Prop := ∃ address, r.result address

/-- Whether the result lists within reach hold standard derivations; new ones will be within reach,
if any are. -/
structure Results.Standard (r : Reach) (results : Results) : Prop where
  read : ∀ address, r.result address → ∀ d ∈ results.read address, d.Standard r
  fresh : r.Lists → ∀ address, results.size ≤ address → r.result address

/-- Whether the store is standard as far as it is within reach: of a cell within reach that is the
definition, or else the factory, which is not called any more where there is a definition. -/
structure Store.Standard (r : Reach) (s : Store) : Prop where
  results : s.results.Standard r
  factory : ∀ address, r.cell address → (s.cellAt address).definition = none →
    Value.OptionStandard r (s.cellAt address).factory
  definition : ∀ address, r.cell address → ∀ p, (s.cellAt address).definition = some p →
    p.Standard r
  globals : s.globals = r.globals

/-- Whether calls of the written functions within reach stay within what is standard. -/
def Reach.Kept (r : Reach) : Prop :=
  ∀ f, r.written f → ∀ arguments : List Value, (∀ v ∈ arguments, v.Standard r) →
    ∀ n, Eval.Maintains (Store.Standard r) ((evaluator n).call (.function f) arguments)
      (Value.Standard r)

/-! ## What standard values hold -/

/-- The result lists within reach as bounds. -/
def Reach.bounds (r : Reach) : Bounds := ⟨r.result, fun _ => True, fun _ => trivial⟩

/-- Whether the written functions within reach hold no result lists but those within reach. -/
def Reach.Bounded (r : Reach) : Prop := ∀ f, r.written f → f.Within r.bounds

mutual

/-- Standard values hold no result lists but those within reach. -/
theorem Value.Standard.within (bounded : r.Bounded) :
    ∀ {v : Value}, v.Standard r → v.Within r.bounds
  | .list _, vs => Value.AllStandard.within bounded vs
  | .tuple _, vs => Value.AllStandard.within bounded vs
  | .derivation _ _, ⟨v, w⟩ => ⟨v.within bounded, w.within bounded⟩
  | .result _, reached => reached
  | .parser _, p => Parser.Standard.within bounded p
  | .function _, f => Callback.Standard.within bounded f
  | .missing, _ | .none, _ | .bool _, _ | .int _, _ | .float _, _ | .text _, _ | .bytes _, _
  | .strategy _, _ | .kind _, _ | .cell _, _ => trivial

theorem Value.AllStandard.within (bounded : r.Bounded) :
    ∀ {vs : List Value}, Value.AllStandard r vs → Value.AllWithin r.bounds vs
  | [], _ => trivial
  | _ :: _, ⟨v, vs⟩ => ⟨v.within bounded, Value.AllStandard.within bounded vs⟩

theorem Value.OptionStandard.within (bounded : r.Bounded) :
    ∀ {v : Option Value}, Value.OptionStandard r v → Value.OptionWithin r.bounds v
  | Option.none, _ => trivial
  | some _, v => Value.Standard.within bounded v

theorem Parser.Standard.within (bounded : r.Bounded) :
    ∀ {p : Parser}, p.Standard r → p.Within r.bounds
  | .node _ _ Option.none, ⟨shape, mapping, _⟩ =>
    ⟨shape.within bounded, mapping.within bounded, trivial⟩
  | .node _ _ (some _), ⟨shape, mapping, name, _⟩ =>
    ⟨shape.within bounded, mapping.within bounded, trivial, Value.Standard.within bounded name⟩

theorem Parser.AllStandard.within (bounded : r.Bounded) :
    ∀ {ps : List Parser}, Parser.AllStandard r ps → Parser.AllWithin r.bounds ps
  | [], _ => trivial
  | _ :: _, ⟨p, ps⟩ => ⟨p.within bounded, Parser.AllStandard.within bounded ps⟩

theorem Shape.Standard.within (bounded : r.Bounded) :
    ∀ {shape : Shape}, shape.Standard r → shape.Within r.bounds
  | .unit _, v => Value.Standard.within bounded v
  | .zero, _ | .item, _ | .lazy _, _ => trivial
  | .negation _, p => Parser.Standard.within bounded p
  | .bind _ _ _, ⟨p, next, always⟩ =>
    ⟨p.within bounded, next.within bounded, always.within bounded⟩
  | .choice _, ps => Parser.AllStandard.within bounded ps
  | .many _ _, ⟨p, accumulate⟩ => ⟨p.within bounded, accumulate.within bounded⟩
  | .lazyOver _, v => Value.Standard.within bounded v
  | .foreign _, v => Value.Standard.within bounded v

theorem Callback.Standard.within (bounded : r.Bounded) :
    ∀ {f : Callback}, f.Standard r → f.Within r.bounds
  | .closure _ _ _, written => bounded _ written
  | .primitive _, _ | .skipSpace, _ | .wordRest, _ | .digits, _ => trivial
  | .adapted _ _, ⟨f, count⟩ => ⟨f.within bounded, count.within bounded⟩
  | .composed _ _, ⟨f, g⟩ => ⟨f.within bounded, g.within bounded⟩
  | .test _, v => Value.Standard.within bounded v
  | .equals _, v => Value.Standard.within bounded v
  | .oneOf _ _, members => Value.AllStandard.within bounded members
  | .constant _, v => Value.Standard.within bounded v
  | .spellRest _ _ _, ⟨p, expected, short⟩ =>
    ⟨p.within bounded, expected.within bounded, short.within bounded⟩
  | .spellJoin _ _ _, ⟨expected, short, head⟩ =>
    ⟨expected.within bounded, short.within bounded, head.within bounded⟩
  | .listRest _, p => Parser.Standard.within bounded p
  | .listJoin _, v => Value.Standard.within bounded v
  | .body _ _, ⟨p, q⟩ => ⟨p.within bounded, q.within bounded⟩
  | .close _, p => Parser.Standard.within bounded p
  | .operands _ _ _, ⟨p, q⟩ => ⟨p.within bounded, q.within bounded⟩
  | .fold _ _, v => Value.Standard.within bounded v
  | .operand _, p => Parser.Standard.within bounded p
  | .pair _, v => Value.Standard.within bounded v
  | .wordJoin _, v => Value.Standard.within bounded v
  | .signed _, v => Value.Standard.within bounded v

end

theorem Store.Standard.quiet : Store.Quiet (Store.Standard r) :=
  fun _ _ standard => ⟨standard.results, standard.factory, standard.definition, standard.globals⟩

end GrammarKit
