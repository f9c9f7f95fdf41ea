import GrammarKit.Proofs.Hereditary
import GrammarKit.Proofs.Standard.Basic

/-! # The combinators keep to standard parsers

What each combinator makes of standard parts is standard, and so are the ready-made parsers. For
most combinators the parts are all there is to it, so the lemmas are equivalences. Being standard
is hereditary, so operations on standard values give standard values.
-/

namespace GrammarKit.Parser

variable {r : Reach} {p q : Parser} {v w : Value}

@[simp] theorem standard_ofShape (s : Shape) :
    (ofShape s).Standard r ↔ s.Standard r ∧ r.Copy s none none := by
  simp [ofShape, Parser.Standard]

@[simp] theorem standard_result : (result v).Standard r ↔ v.Standard r := by
  simp [result, Shape.Standard]

@[simp] theorem standard_zero : zero.Standard r := by simp [zero, Shape.Standard]

@[simp] theorem standard_item : item.Standard r := by simp [item, Shape.Standard]

@[simp] theorem standard_asParser : (asParser v).Standard r ↔ v.Standard r := by
  cases v <;> simp [asParser, Value.Standard]

@[simp] theorem standard_bind {next always : Value} :
    (p.bind next always).Standard r ↔ p.Standard r ∧ next.Standard r ∧ always.Standard r := by
  simp [bind, Shape.Standard]

@[simp] theorem standard_step {f : Callback} :
    (p.step f).Standard r ↔ p.Standard r ∧ f.Standard r := by
  simp [step, Value.Standard]

@[simp] theorem standard_orElse {alternatives : List Value} :
    (p.orElse alternatives).Standard r ↔ p.Standard r ∧ ∀ v ∈ alternatives, v.Standard r := by
  simp [orElse, Shape.Standard]

@[simp] theorem standard_negate : p.negate.Standard r ↔ p.Standard r := by
  simp [negate, Shape.Standard]

@[simp] theorem standard_satisfy : (p.satisfy v).Standard r ↔ p.Standard r ∧ v.Standard r := by
  simp [satisfy, Callback.Standard]

@[simp] theorem standard_equals : (p.equals v).Standard r ↔ p.Standard r ∧ v.Standard r := by
  simp [equals, Value.Standard, Callback.Standard]

@[simp] theorem standard_many {s : Strategy} : (p.many s).Standard r ↔ p.Standard r := by
  simp [many, Shape.Standard, Value.Standard]

theorem standard_empty (s : Strategy) : s.empty.Standard r := by
  cases s <;> simp [Strategy.empty, Value.Standard]

@[simp] theorem standard_manyOrNone {s : Strategy} :
    (p.manyOrNone v s).Standard r ↔ p.Standard r ∧ v.Standard r := by
  cases v <;> simp [manyOrNone, standard_empty, Value.Standard]

@[simp] theorem standard_sepBy :
    (p.sepBy q v).Standard r ↔ p.Standard r ∧ q.Standard r ∧ v.Standard r := by
  simp only [sepBy, standard_orElse, standard_step, standard_bind, Callback.Standard,
    Value.Standard, List.forall_mem_singleton, and_true]
  constructor
  · rintro ⟨⟨element, separator, _⟩, empty⟩
    exact ⟨element, separator, empty⟩
  · rintro ⟨element, separator, empty⟩
    exact ⟨⟨element, separator, element⟩, empty⟩

@[simp] theorem standard_between {left right : Parser} :
    (p.between left right).Standard r ↔ left.Standard r ∧ p.Standard r ∧ right.Standard r := by
  simp [between, Callback.Standard]

@[simp] theorem standard_operatorPairs :
    (p.operatorPairs q).Standard r ↔ q.Standard r ∧ p.Standard r := by
  simp [operatorPairs, Callback.Standard, Value.Standard]

@[simp] theorem standard_chain {rightmost : Bool} :
    (p.chain q rightmost v).Standard r ↔ p.Standard r ∧ q.Standard r ∧ v.Standard r := by
  cases v <;> simp [chain, Callback.Standard, Value.Standard, and_assoc]

@[simp] theorem standard_oneOf {members : List Value} {inside : Bool} :
    (oneOf members inside).Standard r ↔ ∀ v ∈ members, v.Standard r := by
  simp [oneOf, Value.Standard, Callback.Standard]

mutual

/-- A copy of a standard parser is standard. -/
theorem Standard.copy : ∀ {p : Parser}, p.Standard r → p.copy.Standard r
  | .node shape _ _, ⟨standard, mapping, name, copy⟩ =>
    ⟨Shape.standard_copy standard, mapping, name, by cases shape <;> exact copy⟩

theorem Shape.standard_copy : ∀ {s : Shape}, s.Standard r → (copyShape s).Standard r
  | .negation _, standard => Standard.copy standard
  | .bind _ _ _, ⟨p, next⟩ => ⟨Standard.copy p, next⟩
  | .choice _, standard => AllStandard.copy standard
  | .many _ _, ⟨p, accumulate⟩ => ⟨Standard.copy p, accumulate⟩
  | .unit _, standard => standard
  | .zero, standard => standard
  | .item, standard => standard
  | .lazy _, standard => standard
  | .lazyOver _, standard => standard
  | .foreign _, standard => standard

theorem AllStandard.copy : ∀ {ps : List Parser}, AllStandard r ps → AllStandard r (copyAll ps)
  | [], _ => trivial
  | _ :: _, ⟨p, ps⟩ => ⟨Standard.copy p, AllStandard.copy ps⟩

end

@[simp] theorem optionStandard_toOption (standard : v.Standard r) :
    Value.OptionStandard r v.toOption := by
  cases v <;> trivial

/-- No copy of a lazy parser is made of any other parser. -/
theorem copy_of_isLazy_eq_false {shape : Shape} {mapping name : Option Value}
    (eager : (node shape mapping name).isLazy = false) (mapping' name' : Option Value) :
    r.Copy (copyShape shape) mapping' name' := by
  cases shape with
  | lazy _ => cases eager
  | _ => trivial

theorem Standard.map (standard : p.Standard r) (f : v.Standard r) (eager : p.isLazy = false) :
    (p.map v).Standard r := by
  obtain ⟨shape, mapping, name⟩ := p
  refine ⟨Shape.standard_copy standard.1, ?_, standard.2.2.1, copy_of_isLazy_eq_false eager _ _⟩
  have before := standard.2.1
  cases mapping with
  | none => exact optionStandard_toOption f
  | some g => exact ⟨before, f⟩

theorem Standard.named (standard : p.Standard r) (shown : v.Standard r)
    (eager : p.isLazy = false) : (p.named v).Standard r := by
  obtain ⟨shape, mapping, name⟩ := p
  exact ⟨Shape.standard_copy standard.1, standard.2.1, optionStandard_toOption shown,
    copy_of_isLazy_eq_false eager _ _⟩

theorem standard_values (a : Alphabet) : ∀ v ∈ a.values, v.Standard r := by
  intro v member
  obtain ⟨c, _, rfl⟩ := List.mem_map.mp member
  trivial

@[simp] theorem standard_char {shown : List Char} (standard : v.Standard r) :
    (char v shown).Standard r :=
  Standard.named (by simp [standard]) trivial rfl

@[simp] theorem standard_charText (cs : List Char) : (charText cs).Standard r :=
  standard_char trivial

@[simp] theorem standard_whitespace : whitespace.Standard r :=
  Standard.named (by simpa [Value.Standard] using standard_values Alphabet.whitespace) trivial rfl

@[simp] theorem standard_token : p.token.Standard r ↔ p.Standard r := by
  simp [token, Callback.Standard]

@[simp] theorem standard_letter : letter.Standard r :=
  Standard.named (by simpa using standard_values Alphabet.alphabetic) trivial rfl

@[simp] theorem standard_digit : digit.Standard r :=
  Standard.named (Standard.map (by simpa using standard_values Alphabet.decimal) trivial rfl)
    trivial rfl

@[simp] theorem standard_wordTail : (wordTail v).Standard r ↔ v.Standard r := by
  have tail : ∀ w ∈ Value.text ['_'] :: Alphabet.alphanumeric.values, w.Standard r := by
    intro w member
    rcases List.mem_cons.mp member with rfl | other
    · trivial
    · exact standard_values _ w other
  simp only [wordTail, standard_step, standard_manyOrNone, standard_oneOf, Value.Standard,
    and_true, Callback.Standard]
  exact and_iff_right tail

@[simp] theorem standard_identifier : identifier.Standard r :=
  Standard.named (by simp [Value.Standard, Callback.Standard]) trivial rfl

@[simp] theorem standard_digits : (digits v).Standard r ↔ v.Standard r := by
  simp only [digits, standard_step, standard_many, standard_oneOf, Callback.Standard]
  exact and_iff_right (standard_values Alphabet.decimal)

@[simp] theorem standard_integer : integer.Standard r := by
  refine Standard.named ?_ trivial rfl
  simpa [Value.Standard, Callback.Standard] using standard_values Alphabet.signs

/-- An operator table is standard if its matchers and values are. -/
theorem standard_operations {pairs : List (Parser × Value)}
    (standard : ∀ pair ∈ pairs, pair.1.Standard r ∧ pair.2.Standard r) :
    (operations pairs).Standard r := by
  have table : ∀ start : Parser, start.Standard r →
      Standard r (pairs.foldl
        (fun table pair => table.orElse [.parser (pair.1.step (.constant pair.2))]) start) := by
    induction pairs with
    | nil => exact fun _ start => start
    | cons pair pairs ih =>
      intro start first
      have head := standard pair List.mem_cons_self
      apply ih fun other member => standard other (List.mem_cons_of_mem _ member)
      simpa [Value.Standard, Callback.Standard, first] using head
  exact table zero standard_zero

@[simp] theorem standard_addOp : addOp.Standard r :=
  standard_operations (by simp [sign, operatorOf, Value.Standard, Callback.Standard])

@[simp] theorem standard_mulOp : mulOp.Standard r :=
  standard_operations (by simp [sign, operatorOf, Value.Standard, Callback.Standard])

@[simp] theorem standard_powOp : powOp.Standard r :=
  standard_operations (by simp [sign, operatorOf, Value.Standard, Callback.Standard])

/-- The grammar of arithmetic is standard over standard expressions in parentheses. -/
@[simp] theorem standard_arithmetic : (arithmetic p).Standard r ↔ p.Standard r := by
  simp [arithmetic, factor, sign, Value.Standard]

end GrammarKit.Parser

namespace GrammarKit

variable {r : Reach}

theorem Value.hereditary_standard : Hereditary (Value.Standard r) where
  atom v atom := by
    cases v with
    | list _ | tuple _ | derivation _ _ | result _ | cell _ | parser _ | function _ =>
      exact atom.elim
    | _ => trivial
  list vs := by rw [Value.Standard, allStandard_iff]
  tuple vs := by rw [Value.Standard, allStandard_iff]
  derivation _ _ := Iff.rfl

theorem Results.Standard.all {results : Results} (store : results.Standard r) :
    results.All (Value.Standard r) :=
  fun address reached d member => (store.read address reached d member).toValue

theorem Parser.standard_spell {results : Results} {p q : Parser} {expected allowShort : Value}
    (store : results.Standard r) (parser : p.Standard r) (target : expected.Standard r)
    (short : allowShort.Standard r) (spelled : spell results p expected allowShort = .ok q) :
    q.Standard r := by
  obtain ⟨parts, split, spelled⟩ := Except.bind_eq_ok_iff.mp spelled
  cases parts with
  | none =>
    cases spelled
    exact standard_zero
  | some parts =>
    cases spelled
    have head := (Value.hereditary_standard.uncons? store.all target split).1
    simp [Callback.Standard, parser, target, short, head]

end GrammarKit
