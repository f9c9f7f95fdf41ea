import GrammarKit.Evaluation.Make
import GrammarKit.Proofs.Within.Basic

/-! # Combinators keep within bounds

What each combinator makes of parts within bounds is within the same bounds, and so are the
ready-made parsers, which are named by texts. For most combinators the parts are all there is to it,
so the lemmas are equivalences.
-/

namespace GrammarKit.Parser

variable {b : Bounds} {p q : Parser} {v : Value}

@[simp] theorem within_ofShape (s : Shape) : (ofShape s).Within b ↔ s.Within b := by
  simp [ofShape]

@[simp] theorem within_result : (result v).Within b ↔ v.Within b := by simp [result]

@[simp] theorem within_zero : zero.Within b := by simp [zero]

@[simp] theorem within_item : item.Within b := by simp [item]

@[simp] theorem within_asParser : (asParser v).Within b ↔ v.Within b := by
  cases v <;> simp [asParser]

@[simp] theorem within_ofValue : (ofValue v).Within b ↔ v.Within b := by
  cases v <;> simp [ofValue]

/-- What was put in a place for a parser is within the bounds of the place. -/
theorem Within.toValue {p : Parser} (within : p.Within b) : p.toValue.Within b := by
  obtain ⟨shape, mapping, name⟩ := p
  cases shape with
  | foreign v => exact within.1
  | _ => exact within

@[simp] theorem within_bind {next always : Value} :
    (p.bind next always).Within b ↔ p.Within b ∧ next.Within b ∧ always.Within b := by
  simp [bind]

@[simp] theorem within_step {f : Callback} :
    (p.step f).Within b ↔ p.Within b ∧ f.Within b := by
  simp [step]

@[simp] theorem within_orElse {alternatives : List Value} :
    (p.orElse alternatives).Within b ↔ p.Within b ∧ ∀ v ∈ alternatives, v.Within b := by
  simp [orElse]

@[simp] theorem within_negate : p.negate.Within b ↔ p.Within b := by simp [negate]

@[simp] theorem within_satisfy : (p.satisfy v).Within b ↔ p.Within b ∧ v.Within b := by
  simp [satisfy]

@[simp] theorem within_equals : (p.equals v).Within b ↔ p.Within b ∧ v.Within b := by
  simp [equals]

@[simp] theorem within_many {s : Strategy} : (p.many s).Within b ↔ p.Within b := by simp [many]

@[simp] theorem within_empty (s : Strategy) : s.empty.Within b := by
  cases s <;> simp [Strategy.empty]

@[simp] theorem within_manyOrNone {s : Strategy} :
    (p.manyOrNone v s).Within b ↔ p.Within b ∧ v.Within b := by
  cases v <;> simp [manyOrNone]

@[simp] theorem within_sepBy :
    (p.sepBy q v).Within b ↔ p.Within b ∧ q.Within b ∧ v.Within b := by
  simp only [sepBy, within_orElse, within_step, within_bind, Callback.Within, Value.Within,
    List.forall_mem_singleton, and_true]
  constructor
  · rintro ⟨⟨element, separator, _⟩, empty⟩
    exact ⟨element, separator, empty⟩
  · rintro ⟨element, separator, empty⟩
    exact ⟨⟨element, separator, element⟩, empty⟩

@[simp] theorem within_between {left right : Parser} :
    (p.between left right).Within b ↔ left.Within b ∧ p.Within b ∧ right.Within b := by
  simp [between]

@[simp] theorem within_operatorPairs :
    (p.operatorPairs q).Within b ↔ q.Within b ∧ p.Within b := by
  simp [operatorPairs]

@[simp] theorem within_chain {rightmost : Bool} :
    (p.chain q rightmost v).Within b ↔ p.Within b ∧ q.Within b ∧ v.Within b := by
  cases v <;> simp [chain, and_assoc]

@[simp] theorem within_oneOf {members : List Value} {inside : Bool} :
    (oneOf members inside).Within b ↔ ∀ v ∈ members, v.Within b := by
  simp [oneOf]

mutual

/-- A copy of a parser is within the bounds of the parser. -/
theorem Within.copy : ∀ {p : Parser}, p.Within b → p.copy.Within b
  | .node _ _ _, ⟨shape, mapping, name⟩ => ⟨Shape.within_copy shape, mapping, name⟩

theorem Shape.within_copy : ∀ {s : Shape}, s.Within b → (copyShape s).Within b
  | .negation _, within => Within.copy within
  | .bind _ _ _, ⟨p, next⟩ => ⟨Within.copy p, next⟩
  | .choice _, within => AllWithin.copy within
  | .many _ _, ⟨p, accumulate⟩ => ⟨Within.copy p, accumulate⟩
  | .unit _, within | .lazyOver _, within | .foreign _, within => within
  | .zero, within | .item, within | .lazy _, within => within
  | .splits _, within => within
  | .emit _, _ => trivial

theorem AllWithin.copy : ∀ {ps : List Parser}, AllWithin b ps → AllWithin b (copyAll ps)
  | [], _ => trivial
  | _ :: _, ⟨p, ps⟩ => ⟨Within.copy p, AllWithin.copy ps⟩

end

theorem optionWithin_toOption (within : v.Within b) : Value.OptionWithin b v.toOption := by
  cases v <;> trivial

theorem Within.map (within : p.Within b) (f : v.Within b) : (p.map v).Within b := by
  obtain ⟨shape, mapping, name⟩ := p
  refine ⟨Shape.within_copy within.1, ?_, within.2.2⟩
  have before := within.2.1
  cases mapping with
  | none => exact optionWithin_toOption f
  | some g => exact ⟨before, f⟩

theorem Within.named (within : p.Within b) (name : v ≠ .none → b.name v) (shown : v.Within b) :
    (p.named v).Within b := by
  obtain ⟨shape, mapping, _⟩ := p
  refine ⟨Shape.within_copy within.1, within.2.1, ?_⟩
  cases v with
  | none => trivial
  | _ => exact ⟨name (by simp), shown⟩

/-- A text as a name is always within bounds. -/
@[simp] theorem Within.titled (within : p.Within b) (cs : List Char) :
    (p.named (.text cs)).Within b :=
  within.named (fun _ => b.text cs) trivial

@[simp] theorem within_values (a : Alphabet) : ∀ v ∈ a.values, v.Within b := by
  intro v member
  obtain ⟨c, _, rfl⟩ := List.mem_map.mp member
  trivial

theorem within_char (within : v.Within b) (shown : List Char) : (char v shown).Within b := by
  refine Within.titled ?_ _
  simp [within]

@[simp] theorem within_charText (cs : List Char) : (charText cs).Within b :=
  within_char (v := .text cs) trivial _

@[simp] theorem within_whitespace : whitespace.Within b := by
  refine Within.titled ?_ _
  simpa using within_values Alphabet.whitespace

@[simp] theorem within_token : p.token.Within b ↔ p.Within b := by simp [token]

@[simp] theorem within_letter : letter.Within b := by
  refine Within.titled ?_ _
  simpa using within_values Alphabet.alphabetic

@[simp] theorem within_digit : digit.Within b := by
  refine Within.titled (Within.map (v := .kind .integer) ?_ trivial) _
  simpa using within_values Alphabet.decimal

@[simp] theorem within_wordTail : (wordTail v).Within b ↔ v.Within b := by
  have tail : ∀ w ∈ Value.text ['_'] :: Alphabet.alphanumeric.values, w.Within b :=
    List.forall_mem_cons.mpr ⟨trivial, within_values Alphabet.alphanumeric⟩
  simp only [wordTail, within_step, within_manyOrNone, within_oneOf, Value.Within, and_true,
    Callback.Within]
  exact and_iff_right tail

@[simp] theorem within_identifier : identifier.Within b := by
  refine Within.titled ?_ _
  simp

@[simp] theorem within_digits : (digits v).Within b ↔ v.Within b := by
  simp only [digits, within_step, within_many, within_oneOf, Callback.Within]
  exact and_iff_right (within_values Alphabet.decimal)

@[simp] theorem within_integer : integer.Within b := by
  refine Within.titled ?_ _
  simpa using within_values Alphabet.signs

theorem within_operations {pairs : List (Parser × Value)}
    (within : ∀ pair ∈ pairs, pair.1.Within b ∧ pair.2.Within b) :
    (operations pairs).Within b := by
  have table : ∀ start : Parser, start.Within b →
      Parser.Within b (pairs.foldl
        (fun table pair => table.orElse [.parser (pair.1.step (.constant pair.2))]) start) := by
    induction pairs with
    | nil => exact fun _ start => start
    | cons pair pairs ih =>
      intro start first
      have head := within pair List.mem_cons_self
      apply ih fun other member => within other (List.mem_cons_of_mem _ member)
      simpa [first] using head
  exact table zero within_zero

@[simp] theorem within_addOp : addOp.Within b :=
  within_operations (by simp [sign, operatorOf])

@[simp] theorem within_mulOp : mulOp.Within b :=
  within_operations (by simp [sign, operatorOf])

@[simp] theorem within_powOp : powOp.Within b :=
  within_operations (by simp [sign, operatorOf])

@[simp] theorem within_expression : expression.Within b := by simp [expression]

/-- The grammar of arithmetic is within bounds if what stands in parentheses is. -/
@[simp] theorem within_arithmetic : (arithmetic p).Within b ↔ p.Within b := by
  simp [arithmetic, factor, sign]

/-! ## Sequences to be matched -/

theorem within_spell {results : Results} {expected allowShort : Value}
    (store : results.All (Value.Within b)) (parser : p.Within b) (target : expected.Within b)
    (short : allowShort.Within b) (spelled : spell results p expected allowShort = .ok q) :
    q.Within b := by
  obtain ⟨parts, split, spelled⟩ := Except.bind_eq_ok_iff.mp spelled
  cases parts with
  | none =>
    cases spelled
    exact within_zero
  | some parts =>
    cases spelled
    have head := (Value.hereditary_within.uncons? store target split).1
    simp [parser, target, short, head]

theorem within_startsWith {results : Results} {expected allowShort : Value}
    (store : results.All (Value.Within b)) (parser : p.Within b) (target : expected.Within b)
    (short : allowShort.Within b) (spelled : p.startsWith results expected allowShort = .ok q) :
    q.Within b := by
  obtain ⟨length, _, spelled⟩ := Except.bind_eq_ok_iff.mp spelled
  dsimp only at spelled
  split at spelled
  · cases spelled
  · exact within_spell store parser target short spelled

end GrammarKit.Parser

namespace GrammarKit.Value

variable {b : Bounds}

theorem within_atMost {limit v : Value} {count : Nat} (within : limit.Within b)
    (most : atMost limit count = .ok v) : v.Within b := by
  obtain ⟨n, _, most⟩ := Except.bind_eq_ok_iff.mp most
  split at most
  · cases most
    exact within
  · cases most
    trivial

/-- A callback is adapted to a limit within the same bounds. -/
theorem within_adapt {callback limit v : Value} (function : callback.Within b)
    (within : limit.Within b) (adapted : callback.adapt limit = .ok v) : v.Within b := by
  obtain ⟨count, arity, adapted⟩ := Except.bind_eq_ok_iff.mp adapted
  cases adapted
  refine ⟨function, ?_⟩
  unfold arityWithin at arity
  split at arity
  · exact within_atMost within arity
  · cases arity
    exact within
  · exact within_atMost within arity

end GrammarKit.Value
