import GrammarKit.Value.Basic

/-!
# Values that are built alike

Two values are alike if they are built in the same way, down to the terms and scopes of written
functions and to the addresses of what is in the store. No two values are alike that are not the
same as data, and every value is alike to itself, also a float that is no number.
-/

namespace GrammarKit

deriving instance DecidableEq for Maker, Method, Attribute, Operator, Operation

mutual

/-- Whether two written pieces of data are the same. -/
def Datum.alike : Datum → Datum → Bool
  | .none, .none => true
  | .bool a, .bool b => a == b
  | .int m, .int n => m == n
  | .float x, .float y => decide (x = y)
  | .text cs, .text ds => cs == ds
  | .bytes bs, .bytes cs => bs == cs
  | .list ds, .list es => Datum.allAlike ds es
  | .tuple ds, .tuple es => Datum.allAlike ds es
  | _, _ => false
termination_by structural x => x

/-- The same, item by item. -/
def Datum.allAlike : List Datum → List Datum → Bool
  | [], [] => true
  | d :: ds, e :: es => d.alike e && Datum.allAlike ds es
  | _, _ => false
termination_by structural x => x

end

mutual

/-- Whether two terms are the same. -/
def Term.alike : Term → Term → Bool
  | .literal d, .literal e => d.alike e
  | .variable x, .variable y => x == y
  | .function ps t, .function qs u => Term.parametersAlike ps qs && t.alike u
  | .primitive p, .primitive q => p == q
  | .kind k, .kind l => k == l
  | .condition t yes no, .condition u yes' no' => t.alike u && yes.alike yes' && no.alike no'
  | .trace t after, .trace u after' => t.alike u && Term.optionsAlike after after'
  | .logged t, .logged u => t.alike u
  | .apply o ts, .apply o' us => o == o' && Term.allAlike ts us
  | _, _ => false
termination_by structural x => x

/-- The same, term by term. -/
def Term.allAlike : List Term → List Term → Bool
  | [], [] => true
  | t :: ts, u :: us => t.alike u && Term.allAlike ts us
  | _, _ => false
termination_by structural x => x

/-- The same, for what may be absent. -/
def Term.optionsAlike : Option Term → Option Term → Bool
  | none, none => true
  | some t, some u => t.alike u
  | _, _ => false
termination_by structural x => x

/-- The same, for the parameters of a function. -/
def Term.parametersAlike : List (Parameter Term) → List (Parameter Term) → Bool
  | [], [] => true
  | ⟨x, k, d⟩ :: ps, ⟨y, l, e⟩ :: qs =>
    x == y && k == l && Term.optionsAlike d e && Term.parametersAlike ps qs
  | _, _ => false
termination_by structural x => x

end

mutual

/-- Whether two values are built alike. -/
def Value.alike : Value → Value → Bool
  | .missing, .missing => true
  | .none, .none => true
  | .bool a, .bool b => a == b
  | .int m, .int n => m == n
  | .float x, .float y => decide (x = y)
  | .text cs, .text ds => cs == ds
  | .bytes bs, .bytes cs => bs == cs
  | .list vs, .list ws => Value.allAlike vs ws
  | .tuple vs, .tuple ws => Value.allAlike vs ws
  | .derivation v r, .derivation w s => v.alike w && r.alike s
  | .strategy s, .strategy t => s == t
  | .kind k, .kind l => k == l
  | .result a, .result b => a == b
  | .cell a, .cell b => a == b
  | .parser p, .parser q => p.alike q
  | .function f, .function g => f.alike g
  | _, _ => false
termination_by structural x => x

/-- The same, value by value. -/
def Value.allAlike : List Value → List Value → Bool
  | [], [] => true
  | v :: vs, w :: ws => v.alike w && Value.allAlike vs ws
  | _, _ => false
termination_by structural x => x

/-- The same, for what may be absent. -/
def Value.optionsAlike : Option Value → Option Value → Bool
  | none, none => true
  | some v, some w => v.alike w
  | _, _ => false
termination_by structural x => x

/-- The same, for the parameters of a function. -/
def Value.parametersAlike : List (Parameter Value) → List (Parameter Value) → Bool
  | [], [] => true
  | ⟨x, k, d⟩ :: ps, ⟨y, l, e⟩ :: qs =>
    x == y && k == l && Value.optionsAlike d e && Value.parametersAlike ps qs
  | _, _ => false
termination_by structural x => x

/-- The same, for variables in scope. -/
def Value.scopesAlike : List (String × Value) → List (String × Value) → Bool
  | [], [] => true
  | (x, v) :: vs, (y, w) :: ws => x == y && v.alike w && Value.scopesAlike vs ws
  | _, _ => false
termination_by structural x => x

/-- Whether two parsers are built alike. -/
def Parser.alike : Parser → Parser → Bool
  | .node shape mapping name, .node shape' mapping' name' =>
    shape.alike shape' && Value.optionsAlike mapping mapping' && Value.optionsAlike name name'
termination_by structural x => x

/-- The same, parser by parser. -/
def Parser.allAlike : List Parser → List Parser → Bool
  | [], [] => true
  | p :: ps, q :: qs => p.alike q && Parser.allAlike ps qs
  | _, _ => false
termination_by structural x => x

/-- Whether two shapes are built alike. -/
def Shape.alike : Shape → Shape → Bool
  | .unit v, .unit w => v.alike w
  | .zero, .zero => true
  | .item, .item => true
  | .negation p, .negation q => p.alike q
  | .bind p f always, .bind q g always' => p.alike q && f.alike g && always.alike always'
  | .choice ps, .choice qs => Parser.allAlike ps qs
  | .many p v, .many q w => p.alike q && v.alike w
  | .lazy a, .lazy b => a == b
  | .lazyOver v, .lazyOver w => v.alike w
  | .splits vs, .splits ws => Value.allAlike vs ws
  | .emit vs, .emit ws => Value.allAlike vs ws
  | .foreign v, .foreign w => v.alike w
  | _, _ => false
termination_by structural x => x

/-- Whether two functions are built alike. -/
def Callback.alike : Callback → Callback → Bool
  | .closure ps t vs, .closure qs u ws =>
    Value.parametersAlike ps qs && t.alike u && Value.scopesAlike vs ws
  | .primitive p, .primitive q => p == q
  | .adapted f n, .adapted g m => f.alike g && n.alike m
  | .composed f g, .composed f' g' => f.alike f' && g.alike g'
  | .test f, .test g => f.alike g
  | .equals v, .equals w => v.alike w
  | .oneOf vs inside, .oneOf ws inside' => Value.allAlike vs ws && inside == inside'
  | .constant v, .constant w => v.alike w
  | .spellRest p v short, .spellRest q w short' => p.alike q && v.alike w && short.alike short'
  | .spellJoin v short head, .spellJoin w short' head' =>
    v.alike w && short.alike short' && head.alike head'
  | .listRest p, .listRest q => p.alike q
  | .listJoin v, .listJoin w => v.alike w
  | .body p right, .body q right' => p.alike q && right.alike right'
  | .close p, .close q => p.alike q
  | .operands p op rightmost, .operands q op' rightmost' =>
    p.alike q && op.alike op' && rightmost == rightmost'
  | .fold rightmost v, .fold rightmost' w => rightmost == rightmost' && v.alike w
  | .operand p, .operand q => p.alike q
  | .pair v, .pair w => v.alike w
  | .skipSpace, .skipSpace => true
  | .wordRest, .wordRest => true
  | .wordJoin v, .wordJoin w => v.alike w
  | .digits, .digits => true
  | .signed v, .signed w => v.alike w
  | _, _ => false
termination_by structural x => x

end


/-! ## Alike is the same -/

/-- Where the constructors differ, neither side holds. -/
private theorem differ {p : Prop} (different : ¬p) : false = true ↔ p :=
  iff_of_false Bool.false_ne_true different

mutual

theorem Datum.alike_iff (d e : Datum) : d.alike e = true ↔ d = e := by
  cases d <;> cases e <;> first
    | exact differ fun same => by injection same
    | simp [Datum.alike, Datum.allAlike_iff]
termination_by structural d

theorem Datum.allAlike_iff (ds es : List Datum) : Datum.allAlike ds es = true ↔ ds = es := by
  cases ds <;> cases es <;> simp [Datum.allAlike, Datum.alike_iff, Datum.allAlike_iff]
termination_by structural ds

end

mutual

theorem Term.alike_iff (t u : Term) : t.alike u = true ↔ t = u := by
  cases t <;> cases u <;> first
    | exact differ fun same => by injection same
    | simp [Term.alike, Datum.alike_iff, Term.alike_iff, Term.allAlike_iff, Term.optionsAlike_iff,
        Term.parametersAlike_iff, and_assoc]
termination_by structural t

theorem Term.allAlike_iff (ts us : List Term) : Term.allAlike ts us = true ↔ ts = us := by
  cases ts <;> cases us <;> simp [Term.allAlike, Term.alike_iff, Term.allAlike_iff]
termination_by structural ts

theorem Term.optionsAlike_iff (t u : Option Term) : Term.optionsAlike t u = true ↔ t = u := by
  cases t <;> cases u <;> simp [Term.optionsAlike, Term.alike_iff]
termination_by structural t

theorem Term.parametersAlike_iff (ps qs : List (Parameter Term)) :
    Term.parametersAlike ps qs = true ↔ ps = qs := by
  match ps, qs with
  | [], [] | [], _ :: _ | _ :: _, [] => simp [Term.parametersAlike]
  | ⟨x, k, d⟩ :: ps, ⟨y, l, e⟩ :: qs =>
    simp [Term.parametersAlike, Term.optionsAlike_iff d, Term.parametersAlike_iff ps, and_assoc]
termination_by structural ps

end

mutual

theorem Value.alike_iff (v w : Value) : v.alike w = true ↔ v = w := by
  cases v <;> cases w <;> first
    | exact differ fun same => by injection same
    | simp [Value.alike, Value.alike_iff, Value.allAlike_iff, Parser.alike_iff,
        Callback.alike_iff]
termination_by structural v

theorem Value.allAlike_iff (vs ws : List Value) : Value.allAlike vs ws = true ↔ vs = ws := by
  cases vs <;> cases ws <;> simp [Value.allAlike, Value.alike_iff, Value.allAlike_iff]
termination_by structural vs

theorem Value.optionsAlike_iff (v w : Option Value) : Value.optionsAlike v w = true ↔ v = w := by
  cases v <;> cases w <;> simp [Value.optionsAlike, Value.alike_iff]
termination_by structural v

theorem Value.parametersAlike_iff (ps qs : List (Parameter Value)) :
    Value.parametersAlike ps qs = true ↔ ps = qs := by
  match ps, qs with
  | [], [] | [], _ :: _ | _ :: _, [] => simp [Value.parametersAlike]
  | ⟨x, k, d⟩ :: ps, ⟨y, l, e⟩ :: qs =>
    simp [Value.parametersAlike, Value.optionsAlike_iff d, Value.parametersAlike_iff ps,
      and_assoc]
termination_by structural ps

theorem Value.scopesAlike_iff (vs ws : List (String × Value)) :
    Value.scopesAlike vs ws = true ↔ vs = ws := by
  match vs, ws with
  | [], [] | [], _ :: _ | _ :: _, [] => simp [Value.scopesAlike]
  | (x, v) :: vs, (y, w) :: ws =>
    simp [Value.scopesAlike, Value.alike_iff v, Value.scopesAlike_iff vs]
termination_by structural vs

theorem Parser.alike_iff (p q : Parser) : p.alike q = true ↔ p = q := by
  cases p
  cases q
  simp [Parser.alike, Shape.alike_iff, Value.optionsAlike_iff, and_assoc]
termination_by structural p

theorem Parser.allAlike_iff (ps qs : List Parser) : Parser.allAlike ps qs = true ↔ ps = qs := by
  cases ps <;> cases qs <;> simp [Parser.allAlike, Parser.alike_iff, Parser.allAlike_iff]
termination_by structural ps

theorem Shape.alike_iff (s t : Shape) : s.alike t = true ↔ s = t := by
  cases s <;> cases t <;> first
    | exact differ fun same => by injection same
    | simp [Shape.alike, Value.alike_iff, Value.allAlike_iff, Parser.alike_iff,
        Parser.allAlike_iff, and_assoc]
termination_by structural s

theorem Callback.alike_iff (f g : Callback) : f.alike g = true ↔ f = g := by
  cases f <;> cases g <;> first
    | exact differ fun same => by injection same
    | simp [Callback.alike, Value.alike_iff, Value.allAlike_iff, Value.parametersAlike_iff,
        Value.scopesAlike_iff, Parser.alike_iff, Term.alike_iff, and_assoc]
termination_by structural f

end

end GrammarKit
