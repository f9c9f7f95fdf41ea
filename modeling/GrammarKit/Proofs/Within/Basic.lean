import GrammarKit.Proofs.Hereditary

/-! # Values within bounds

Which result lists a value refers to, and how the parsers in it are named, all the way down: in the
items of collections, in the parts of parsers, and in the scopes of functions. `Bounds` says which
addresses and which names there may be. Result lists and cells are not followed here; that what they
hold is within bounds too is said of the store.
-/

namespace GrammarKit

/-- The result lists that values may refer to, and the names that parsers may have, which include
all texts. -/
structure Bounds where
  result : Nat → Prop
  name : Value → Prop
  text : ∀ cs, name (.text cs)

variable (b : Bounds)

mutual

/-- Whether a value is within bounds. -/
@[simp] def Value.Within : Value → Prop
  | .list vs => Value.AllWithin vs
  | .tuple vs => Value.AllWithin vs
  | .derivation v w => v.Within ∧ w.Within
  | .result address => b.result address
  | .parser p => p.Within
  | .function f => f.Within
  | _ => True

/-- Whether all of several values are within bounds. -/
@[simp] def Value.AllWithin : List Value → Prop
  | [] => True
  | v :: vs => v.Within ∧ Value.AllWithin vs

/-- Whether a value is within bounds if it is there. -/
@[simp] def Value.OptionWithin : Option Value → Prop
  | Option.none => True
  | some v => v.Within

/-- Whether a name is within bounds if it is there. -/
@[simp] def Value.NameWithin : Option Value → Prop
  | Option.none => True
  | some v => b.name v ∧ v.Within

/-- Whether a parser is within bounds, with its mapping and its name. -/
@[simp] def Parser.Within : Parser → Prop
  | .node shape mapping name =>
    shape.Within ∧ Value.OptionWithin mapping ∧ Value.NameWithin name

/-- Whether all of several parsers are within bounds. -/
@[simp] def Parser.AllWithin : List Parser → Prop
  | [] => True
  | p :: ps => p.Within ∧ Parser.AllWithin ps

/-- Whether the parts of a shape are within bounds. -/
@[simp] def Shape.Within : Shape → Prop
  | .unit v => v.Within
  | .zero => True
  | .item => True
  | .negation p => p.Within
  | .bind p next always => p.Within ∧ next.Within ∧ always.Within
  | .choice ps => Parser.AllWithin ps
  | .many p accumulate => p.Within ∧ accumulate.Within
  | .lazy _ => True
  | .lazyOver v => v.Within
  | .splits sizes => Value.AllWithin sizes
  | .emit pairs => Value.AllWithin pairs
  | .foreign v => v.Within

/-- Whether the parts of a function are within bounds, and, if it is written in a term, its defaults
and its scope. -/
@[simp] def Callback.Within : Callback → Prop
  | .closure parameters _ scope => Value.DefaultsWithin parameters ∧ Value.ScopeWithin scope
  | .primitive _ => True
  | .adapted f count => f.Within ∧ count.Within
  | .composed f g => f.Within ∧ g.Within
  | .test condition => condition.Within
  | .equals v => v.Within
  | .oneOf members _ => Value.AllWithin members
  | .constant v => v.Within
  | .spellRest p expected allowShort => p.Within ∧ expected.Within ∧ allowShort.Within
  | .spellJoin expected allowShort head => expected.Within ∧ allowShort.Within ∧ head.Within
  | .listRest p => p.Within
  | .listJoin v => v.Within
  | .body p q => p.Within ∧ q.Within
  | .close p => p.Within
  | .operands p q _ => p.Within ∧ q.Within
  | .fold _ v => v.Within
  | .operand p => p.Within
  | .pair v => v.Within
  | .skipSpace => True
  | .wordRest => True
  | .wordJoin v => v.Within
  | .digits => True
  | .signed v => v.Within

/-- Whether the defaults of parameters are within bounds. -/
@[simp] def Value.DefaultsWithin : List (Parameter Value) → Prop
  | [] => True
  | p :: ps => Value.DefaultWithin p ∧ Value.DefaultsWithin ps

/-- Whether the default of a parameter is within bounds. -/
@[simp] def Value.DefaultWithin : Parameter Value → Prop
  | ⟨_, _, default⟩ => Value.OptionWithin default

/-- Whether the values of variables are within bounds. -/
@[simp] def Value.ScopeWithin : List (String × Value) → Prop
  | [] => True
  | e :: es => Value.EntryWithin e ∧ Value.ScopeWithin es

/-- Whether the value of a variable is within bounds. -/
@[simp] def Value.EntryWithin : String × Value → Prop
  | (_, v) => v.Within

end

/-- Whether the value and the remainder of a derivation are within bounds. -/
def Derivation.Within (d : Derivation) : Prop := d.toValue.Within b

variable {b}

@[simp] theorem Value.allWithin_iff (vs : List Value) :
    Value.AllWithin b vs ↔ ∀ v ∈ vs, v.Within b := by
  induction vs with
  | nil => simp
  | cons v vs ih => simp [ih]

@[simp] theorem Parser.allWithin_iff (ps : List Parser) :
    Parser.AllWithin b ps ↔ ∀ p ∈ ps, p.Within b := by
  induction ps with
  | nil => simp
  | cons p ps ih => simp [ih]

theorem Value.hereditary_within : Hereditary (Value.Within b) where
  atom v atom := by
    cases v with
    | list _ | tuple _ | derivation _ _ | result _ | parser _ | function _ => exact atom.elim
    | _ => trivial
  list vs := by rw [Value.Within, allWithin_iff]
  tuple vs := by rw [Value.Within, allWithin_iff]
  derivation _ _ := Iff.rfl

/-! ## Variables -/

theorem Value.ScopeWithin.append {locals scope : Scope} (inner : ScopeWithin b locals)
    (outer : ScopeWithin b scope) : ScopeWithin b (locals ++ scope) := by
  induction locals with
  | nil => exact outer
  | cons e es ih => exact ⟨inner.1, ih inner.2⟩

theorem Value.ScopeWithin.lookup {name : String} {v : Value} :
    ∀ {scope : Scope}, ScopeWithin b scope → scope.lookup name = some v → v.Within b
  | (other, w) :: scope, within, found => by
    rw [List.lookup_cons] at found
    split at found
    · cases found
      exact within.1
    · exact within.2.lookup found

/-- Parameters are filled with arguments and defaults. -/
theorem Value.ScopeWithin.of_bindParameters {parameters : List (Parameter Value)} :
    ∀ {arguments : List Value} {locals : Scope}, DefaultsWithin b parameters →
      (∀ v ∈ arguments, v.Within b) → bindParameters parameters arguments = .ok locals →
      ScopeWithin b locals := by
  induction parameters with
  | nil =>
    intro arguments locals _ _ bound
    cases arguments <;> cases bound
    trivial
  | cons p ps ih =>
    intro arguments locals defaults all bound
    obtain ⟨name, kind, default⟩ := p
    have filled (v : Value) (others : List Value) (within : v.Within b)
        (rest : ∀ w ∈ others, w.Within b)
        (bound : (do return (name, v) :: (← bindParameters ps others) : Except Error Scope) =
          .ok locals) : ScopeWithin b locals := by
      obtain ⟨more, found, last⟩ := Except.bind_eq_ok_iff.mp bound
      cases last
      exact ⟨within, ih defaults.2 rest found⟩
    have missing (bound : default.elim (.error .wrongKind : Except Error Scope)
        (fun d => do return (name, d) :: (← bindParameters ps arguments)) = .ok locals) :
        ScopeWithin b locals := by
      cases default with
      | none => cases bound
      | some d => exact filled d arguments defaults.1 all bound
    cases kind with
    | standard | positional =>
      cases arguments with
      | nil => exact missing (by cases default <;> exact bound)
      | cons v others =>
        have parts := List.forall_mem_cons.mp all
        exact filled v others parts.1 parts.2 bound
    | rest =>
      exact filled _ [] ((hereditary_within.tuple _).mpr all) (List.forall_mem_nil _) bound
    | named => exact missing (by cases default <;> exact bound)
    | namedRest => exact filled (.tuple []) arguments trivial all bound

/-! ## Written data -/

mutual

theorem Value.within_ofDatum : ∀ d : Datum, (ofDatum d).Within b
  | .none | .bool _ | .int _ | .float _ | .text _ | .bytes _ => trivial
  | .list items => Value.allWithin_ofData items
  | .tuple items => Value.allWithin_ofData items

theorem Value.allWithin_ofData : ∀ items : List Datum, AllWithin b (ofData items)
  | [] => trivial
  | d :: ds => ⟨Value.within_ofDatum d, Value.allWithin_ofData ds⟩

end

/-! ## Wider bounds -/

/-- Whether bounds are no narrower than others. -/
structure Bounds.Le (b b' : Bounds) : Prop where
  result : ∀ address, b.result address → b'.result address
  name : ∀ v, b.name v → b'.name v

variable {b' : Bounds}

mutual

/-- What is within bounds is within wider ones. -/
theorem Value.Within.mono (le : b.Le b') : ∀ {v : Value}, v.Within b → v.Within b'
  | .list _, within => Value.AllWithin.mono le within
  | .tuple _, within => Value.AllWithin.mono le within
  | .derivation _ _, ⟨v, w⟩ => ⟨v.mono le, w.mono le⟩
  | .result address, within => le.result address within
  | .parser p, within => Parser.Within.mono (p := p) le within
  | .function f, within => Callback.Within.mono (f := f) le within
  | .missing, _ | .none, _ | .bool _, _ | .int _, _ | .float _, _ | .text _, _ | .bytes _, _
  | .strategy _, _ | .kind _, _ | .cell _, _ => trivial

theorem Value.AllWithin.mono (le : b.Le b') :
    ∀ {vs : List Value}, Value.AllWithin b vs → Value.AllWithin b' vs
  | [], _ => trivial
  | _ :: _, ⟨v, vs⟩ => ⟨v.mono le, Value.AllWithin.mono le vs⟩

theorem Value.OptionWithin.mono (le : b.Le b') :
    ∀ {v : Option Value}, Value.OptionWithin b v → Value.OptionWithin b' v
  | Option.none, _ => trivial
  | some _, within => Value.Within.mono le within

theorem Value.NameWithin.mono (le : b.Le b') :
    ∀ {v : Option Value}, Value.NameWithin b v → Value.NameWithin b' v
  | Option.none, _ => trivial
  | some v, ⟨name, within⟩ => ⟨le.name v name, within.mono le⟩

theorem Parser.Within.mono (le : b.Le b') : ∀ {p : Parser}, p.Within b → p.Within b'
  | .node _ _ _, ⟨shape, mapping, name⟩ => ⟨shape.mono le, mapping.mono le, name.mono le⟩

theorem Parser.AllWithin.mono (le : b.Le b') :
    ∀ {ps : List Parser}, Parser.AllWithin b ps → Parser.AllWithin b' ps
  | [], _ => trivial
  | _ :: _, ⟨p, ps⟩ => ⟨p.mono le, Parser.AllWithin.mono le ps⟩

theorem Shape.Within.mono (le : b.Le b') : ∀ {shape : Shape}, shape.Within b → shape.Within b'
  | .unit _, v => Value.Within.mono le v
  | .zero, _ | .item, _ | .lazy _, _ => trivial
  | .negation _, p => Parser.Within.mono le p
  | .bind _ _ _, ⟨p, next, always⟩ => ⟨p.mono le, next.mono le, always.mono le⟩
  | .choice _, ps => Parser.AllWithin.mono le ps
  | .many _ _, ⟨p, accumulate⟩ => ⟨p.mono le, accumulate.mono le⟩
  | .lazyOver _, v => Value.Within.mono le v
  | .splits _, sizes => Value.AllWithin.mono le sizes
  | .emit _, pairs => Value.AllWithin.mono le pairs
  | .foreign _, v => Value.Within.mono le v

theorem Callback.Within.mono (le : b.Le b') : ∀ {f : Callback}, f.Within b → f.Within b'
  | .closure _ _ _, ⟨defaults, scope⟩ => ⟨defaults.mono le, scope.mono le⟩
  | .primitive _, _ | .skipSpace, _ | .wordRest, _ | .digits, _ => trivial
  | .adapted _ _, ⟨f, count⟩ => ⟨f.mono le, count.mono le⟩
  | .composed _ _, ⟨f, g⟩ => ⟨f.mono le, g.mono le⟩
  | .test _, v => Value.Within.mono le v
  | .equals _, v => Value.Within.mono le v
  | .oneOf _ _, members => Value.AllWithin.mono le members
  | .constant _, v => Value.Within.mono le v
  | .spellRest _ _ _, ⟨p, expected, short⟩ => ⟨p.mono le, expected.mono le, short.mono le⟩
  | .spellJoin _ _ _, ⟨expected, short, head⟩ => ⟨expected.mono le, short.mono le, head.mono le⟩
  | .listRest _, p => Parser.Within.mono le p
  | .listJoin _, v => Value.Within.mono le v
  | .body _ _, ⟨p, q⟩ => ⟨p.mono le, q.mono le⟩
  | .close _, p => Parser.Within.mono le p
  | .operands _ _ _, ⟨p, q⟩ => ⟨p.mono le, q.mono le⟩
  | .fold _ _, v => Value.Within.mono le v
  | .operand _, p => Parser.Within.mono le p
  | .pair _, v => Value.Within.mono le v
  | .wordJoin _, v => Value.Within.mono le v
  | .signed _, v => Value.Within.mono le v

theorem Value.DefaultsWithin.mono (le : b.Le b') :
    ∀ {ps : List (Parameter Value)}, Value.DefaultsWithin b ps → Value.DefaultsWithin b' ps
  | [], _ => trivial
  | _ :: _, ⟨p, ps⟩ => ⟨p.mono le, ps.mono le⟩

theorem Value.DefaultWithin.mono (le : b.Le b') :
    ∀ {p : Parameter Value}, Value.DefaultWithin b p → Value.DefaultWithin b' p
  | ⟨_, _, _⟩, default => Value.OptionWithin.mono le default

theorem Value.ScopeWithin.mono (le : b.Le b') :
    ∀ {scope : List (String × Value)}, Value.ScopeWithin b scope → Value.ScopeWithin b' scope
  | [], _ => trivial
  | _ :: _, ⟨e, es⟩ => ⟨e.mono le, es.mono le⟩

theorem Value.EntryWithin.mono (le : b.Le b') :
    ∀ {e : String × Value}, Value.EntryWithin b e → Value.EntryWithin b' e
  | (_, _), v => Value.Within.mono le v

end

/-! ## No bounds -/

/-- The bounds of all values. -/
def Bounds.unlimited : Bounds := ⟨fun _ => True, fun _ => True, fun _ => trivial⟩

mutual

theorem Value.within_unlimited : ∀ v : Value, v.Within .unlimited
  | .list vs | .tuple vs => Value.allWithin_unlimited vs
  | .derivation v w => ⟨Value.within_unlimited v, Value.within_unlimited w⟩
  | .parser p => Parser.within_unlimited p
  | .function f => Callback.within_unlimited f
  | .result _ | .cell _ | .missing | .none | .bool _ | .int _ | .float _ | .text _ | .bytes _
  | .strategy _ | .kind _ => trivial

theorem Value.allWithin_unlimited : ∀ vs : List Value, Value.AllWithin .unlimited vs
  | [] => trivial
  | v :: vs => ⟨Value.within_unlimited v, Value.allWithin_unlimited vs⟩

theorem Value.optionWithin_unlimited : ∀ v : Option Value, Value.OptionWithin .unlimited v
  | Option.none => trivial
  | some v => Value.within_unlimited v

theorem Value.nameWithin_unlimited : ∀ v : Option Value, Value.NameWithin .unlimited v
  | Option.none => trivial
  | some v => ⟨trivial, Value.within_unlimited v⟩

theorem Parser.within_unlimited : ∀ p : Parser, p.Within .unlimited
  | .node shape mapping name => ⟨Shape.within_unlimited shape,
    Value.optionWithin_unlimited mapping, Value.nameWithin_unlimited name⟩

theorem Parser.allWithin_unlimited : ∀ ps : List Parser, Parser.AllWithin .unlimited ps
  | [] => trivial
  | p :: ps => ⟨Parser.within_unlimited p, Parser.allWithin_unlimited ps⟩

theorem Shape.within_unlimited : ∀ shape : Shape, shape.Within .unlimited
  | .unit v | .lazyOver v | .foreign v => Value.within_unlimited v
  | .zero | .item | .lazy _ => trivial
  | .negation p => Parser.within_unlimited p
  | .bind p next always =>
    ⟨Parser.within_unlimited p, Value.within_unlimited next, Value.within_unlimited always⟩
  | .choice ps => Parser.allWithin_unlimited ps
  | .many p accumulate => ⟨Parser.within_unlimited p, Value.within_unlimited accumulate⟩
  | .splits vs | .emit vs => Value.allWithin_unlimited vs

theorem Callback.within_unlimited : ∀ f : Callback, f.Within .unlimited
  | .closure parameters _ scope =>
    ⟨Value.defaultsWithin_unlimited parameters, Value.scopeWithin_unlimited scope⟩
  | .primitive _ | .skipSpace | .wordRest | .digits => trivial
  | .adapted v w | .composed v w => ⟨Value.within_unlimited v, Value.within_unlimited w⟩
  | .test v | .equals v | .constant v | .listJoin v | .fold _ v | .pair v | .wordJoin v
  | .signed v => Value.within_unlimited v
  | .oneOf members _ => Value.allWithin_unlimited members
  | .spellRest p v w =>
    ⟨Parser.within_unlimited p, Value.within_unlimited v, Value.within_unlimited w⟩
  | .spellJoin u v w =>
    ⟨Value.within_unlimited u, Value.within_unlimited v, Value.within_unlimited w⟩
  | .listRest p | .close p | .operand p => Parser.within_unlimited p
  | .body p q | .operands p q _ => ⟨Parser.within_unlimited p, Parser.within_unlimited q⟩

theorem Value.defaultsWithin_unlimited :
    ∀ ps : List (Parameter Value), Value.DefaultsWithin .unlimited ps
  | [] => trivial
  | p :: ps => ⟨Value.defaultWithin_unlimited p, Value.defaultsWithin_unlimited ps⟩

theorem Value.defaultWithin_unlimited : ∀ p : Parameter Value, Value.DefaultWithin .unlimited p
  | ⟨_, _, default⟩ => Value.optionWithin_unlimited default

theorem Value.scopeWithin_unlimited :
    ∀ scope : List (String × Value), Value.ScopeWithin .unlimited scope
  | [] => trivial
  | e :: es => ⟨Value.entryWithin_unlimited e, Value.scopeWithin_unlimited es⟩

theorem Value.entryWithin_unlimited : ∀ e : String × Value, Value.EntryWithin .unlimited e
  | (_, v) => Value.within_unlimited v

end

end GrammarKit
