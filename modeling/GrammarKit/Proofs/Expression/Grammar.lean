import GrammarKit.Proofs.Folding
import GrammarKit.Proofs.Numerals

/-! # The language of arithmetic expressions

The grammar of sums of products of powers, apart from any parser: which texts belong to a level of
it, as which tree, and what the value of a tree is, as far as the runtime converts its numerals.
Powers are folded from the right, products and sums from the left, and blanks may follow every
token.
-/

namespace GrammarKit.Expression

/-- The five operators. -/
inductive Operator where
  | add | subtract | multiply | divide | power
deriving DecidableEq, Repr

namespace Operator

def sign : Operator → Char
  | add => '+'
  | subtract => '-'
  | multiply => '*'
  | divide => '/'
  | power => '^'

/-- The function that an operator stands for. -/
def primitive : Operator → Primitive
  | add => .add
  | subtract => .subtract
  | multiply => .multiply
  | divide => .divide
  | power => .power

/-- What the function gives for two numbers. -/
def apply : Operator → Value → Value → Except Error Value
  | add => Value.add
  | subtract => Value.subtract
  | multiply => Value.multiply
  | divide => Value.divide
  | power => Value.power

/-- The function as a value. -/
def function (o : Operator) : Value := Parser.operatorOf o.primitive

end Operator

/-- The levels of precedence, from the tightest one on. -/
inductive Level where
  | factor | power | term | sum
deriving DecidableEq, Repr

namespace Level

/-- The level of the operands; factors have none. -/
def below : Level → Level
  | factor | power => factor
  | term => power
  | sum => term

def operators : Level → List Operator
  | factor => []
  | power => [.power]
  | term => [.multiply, .divide]
  | sum => [.add, .subtract]

/-- Whether the chains of a level are folded from the right. -/
def rightmost : Level → Bool
  | power => true
  | _ => false

def rank : Level → Nat
  | factor => 0
  | power => 1
  | term => 2
  | sum => 3

theorem rank_below_le (l : Level) : l.below.rank ≤ l.rank := by
  cases l <;> decide

theorem rank_below_lt {l : Level} (chain : l ≠ factor) : l.below.rank < l.rank := by
  cases l with
  | factor => exact absurd rfl chain
  | _ => decide

end Level

/-- The level that an operator makes chains of. -/
def Operator.level : Operator → Level
  | add | subtract => .sum
  | multiply | divide => .term
  | power => .power

theorem Level.mem_operators_iff {l : Level} {o : Operator} : o ∈ l.operators ↔ o.level = l := by
  cases l <;> cases o <;> decide

theorem Operator.sign_injective {o o' : Operator} (same : o.sign = o'.sign) : o = o' := by
  cases o <;> cases o' <;> first | rfl | exact absurd same (by decide)

mutual

/-- The syntax tree of an expression: a numeral, or a chain of operands and operators. -/
inductive Tree where
  | number (numeral : Numeral)
  | chain (rightmost : Bool) (first : Tree) (steps : Steps)

/-- The operators of a chain, each with the operand after it. -/
inductive Steps where
  | nil
  | cons (o : Operator) (operand : Tree) (rest : Steps)

end

section

variable (runtime : Runtime)

mutual

/-- The value of a tree, or the first error on the way: operands come before the operators on
them, and from left to right. -/
def Tree.value : Tree → Except Error Value
  | .number numeral => numeral.read runtime
  | .chain rightmost first steps => do
    let a ← first.value
    let pairs ← steps.values
    foldWith Operator.apply rightmost a pairs

/-- Operators and the values of their operands. -/
def Steps.values : Steps → Except Error (List (Operator × Value))
  | .nil => .ok []
  | .cons o operand rest => do
    let b ← operand.value
    let pairs ← rest.values
    return (o, b) :: pairs

end

end

/-- A run of blanks. -/
def IsBlank (cs : List Char) : Prop := ∀ c ∈ cs, Alphabet.whitespace.has c = true

/-- A run of decimal digits, at least one. -/
structure IsDigits (cs : List Char) : Prop where
  nonempty : cs ≠ []
  decimal : ∀ c ∈ cs, Alphabet.decimal.has c = true

/-- An optional sign. -/
def IsSign (cs : List Char) : Prop := cs = [] ∨ cs = ['+'] ∨ cs = ['-']

mutual

/-- Whether a text belongs to a level of the grammar, read as a tree. -/
inductive Reads : Level → List Char → Tree → Prop where
  | number {sign digits blanks : List Char} :
    IsSign sign → IsDigits digits → IsBlank blanks →
      Reads .factor (sign ++ digits ++ blanks) (.number ⟨sign, digits⟩)
  | parentheses {before inner after : List Char} {t : Tree} :
    IsBlank before → Reads .sum inner t → IsBlank after →
      Reads .factor ('(' :: (before ++ inner ++ ')' :: after)) t
  | chain {l : Level} {first rest : List Char} {a : Tree} {steps : Steps} :
    l ≠ .factor → Reads l.below first a → ReadsSteps l rest steps →
      Reads l (first ++ rest) (.chain l.rightmost a steps)

/-- Whether a text is a sequence of operators of a level with an operand each. -/
inductive ReadsSteps : Level → List Char → Steps → Prop where
  | nil {l : Level} : ReadsSteps l [] .nil
  | cons {l : Level} {o : Operator} {blanks operand rest : List Char} {b : Tree} {steps : Steps} :
    o ∈ l.operators → IsBlank blanks → Reads l.below operand b → ReadsSteps l rest steps →
      ReadsSteps l (o.sign :: (blanks ++ operand ++ rest)) (.cons o b steps)

end

/-! ## Blanks, digits and signs -/

theorem takeWhile_isBlank (cs : List Char) : IsBlank (cs.takeWhile Alphabet.whitespace.has) :=
  fun c member => List.all_eq_true.mp List.all_takeWhile c member

theorem takeWhile_append_skipBlanks (cs : List Char) :
    cs.takeWhile Alphabet.whitespace.has ++ skipBlanks cs = cs :=
  List.takeWhile_append_dropWhile

theorem skipBlanks_append {blanks : List Char} (blank : IsBlank blanks) (cs : List Char) :
    skipBlanks (blanks ++ cs) = skipBlanks cs :=
  List.dropWhile_append_of_pos blank

theorem length_skipBlanks_le (cs : List Char) : (skipBlanks cs).length ≤ cs.length :=
  (List.dropWhile_sublist _).length_le

/-- What no digit is: a blank or a sign. -/
structure IsInert (c : Char) : Prop where
  blank : Alphabet.whitespace.has c = false
  sign : Alphabet.signs.has c = false

theorem isInert_of_decimal {c : Char} (digit : Alphabet.decimal.has c = true) : IsInert c := by
  have all : Alphabet.decimal.members.all fun d =>
      Alphabet.whitespace.has d = false ∧ Alphabet.signs.has d = false := by decide
  obtain ⟨blank, sign⟩ := Alphabet.of_all_members all digit
  exact ⟨blank, sign⟩

theorem not_decimal_of_blank {c : Char} (blank : Alphabet.whitespace.has c = true) :
    Alphabet.decimal.has c = false := by
  have all : Alphabet.whitespace.members.all fun d => Alphabet.decimal.has d = false := by decide
  exact Alphabet.of_all_members all blank

/-- A sign in front of digits is split off them. -/
theorem splitSign_append {sign digits : List Char} (signed : IsSign sign) (some_ : IsDigits digits)
    (rest : List Char) : splitSign (sign ++ digits ++ rest) = (sign, digits ++ rest) := by
  rcases signed with rfl | rfl | rfl
  · obtain ⟨c, cs, rfl⟩ := List.exists_cons_of_ne_nil some_.nonempty
    have digit := isInert_of_decimal (some_.decimal c List.mem_cons_self)
    simp only [List.nil_append, List.cons_append, splitSign, digit.sign, Bool.false_eq_true,
      if_false]
  · rfl
  · rfl

/-- A numeral is read to the end of its digits. -/
theorem numeralAt?_append {sign digits : List Char} (signed : IsSign sign)
    (some_ : IsDigits digits) (rest : List Char) :
    numeralAt? (sign ++ digits ++ rest) =
      some (⟨sign, digits ++ rest.takeWhile Alphabet.decimal.has⟩,
        rest.dropWhile Alphabet.decimal.has) := by
  have nonempty : digits ++ rest.takeWhile Alphabet.decimal.has ≠ [] :=
    List.append_ne_nil_of_left_ne_nil some_.nonempty _
  unfold numeralAt?
  simp only [splitSign_append signed some_, List.takeWhile_append_of_pos some_.decimal,
    List.dropWhile_append_of_pos some_.decimal, List.isEmpty_iff, if_neg nonempty]

/-- What is read as a numeral is one: a sign, digits, and what is left. -/
theorem numeralAt?_eq_some {cs rest : List Char} {numeral : Numeral}
    (read : numeralAt? cs = some (numeral, rest)) :
    IsSign numeral.sign ∧ IsDigits numeral.digits ∧
      cs = numeral.sign ++ numeral.digits ++ rest := by
  have split : IsSign (splitSign cs).1 ∧ cs = (splitSign cs).1 ++ (splitSign cs).2 := by
    cases cs with
    | nil => exact ⟨.inl rfl, rfl⟩
    | cons c cs =>
      by_cases signed : Alphabet.signs.has c = true
      · simp only [splitSign, if_pos signed, List.singleton_append, and_true]
        have all : Alphabet.signs.members.all fun d => d = '+' ∨ d = '-' := by decide
        rcases Alphabet.of_all_members all signed with rfl | rfl
        · exact .inr (.inl rfl)
        · exact .inr (.inr rfl)
      · simp only [splitSign, if_neg signed, List.nil_append, and_true]
        exact .inl rfl
  unfold numeralAt? at read
  by_cases missing : ((splitSign cs).2.takeWhile Alphabet.decimal.has).isEmpty = true
  · simp only [if_pos missing, reduceCtorEq] at read
  · simp only [if_neg missing, Option.some.injEq, Prod.mk.injEq] at read
    obtain ⟨rfl, rfl⟩ := read
    refine ⟨split.1, ⟨fun same => missing (List.isEmpty_iff.mpr same), ?_⟩, ?_⟩
    · exact fun c member => List.all_eq_true.mp List.all_takeWhile c member
    · rw [List.append_assoc, List.takeWhile_append_dropWhile]
      exact split.2

/-! ## The ends of words -/

/-- A word begins with a digit, a sign or a parenthesis, and so with no blank. -/
theorem Reads.begins : ∀ {l : Level} {w : List Char} {t : Tree}, Reads l w t →
    ∃ c cs, w = c :: cs ∧ Alphabet.whitespace.has c = false
  | _, _, _, @Reads.number _ _ _ signed some_ _ => by
    obtain ⟨c, cs, rfl⟩ := List.exists_cons_of_ne_nil some_.nonempty
    rcases signed with rfl | rfl | rfl
    · exact ⟨c, _, rfl, (isInert_of_decimal (some_.decimal c List.mem_cons_self)).blank⟩
    · exact ⟨'+', _, rfl, rfl⟩
    · exact ⟨'-', _, rfl, rfl⟩
  | _, _, _, .parentheses _ _ _ => ⟨'(', _, rfl, rfl⟩
  | _, _, _, .chain _ first _ => by
    obtain ⟨c, cs, rfl, visible⟩ := first.begins
    exact ⟨c, _, rfl, visible⟩

/-- Blanks in front of a word are all that is skipped. -/
theorem Reads.skipBlanks_append {l : Level} {blanks w : List Char} {t : Tree}
    (reads : Reads l w t) (blank : IsBlank blanks) (rest : List Char) :
    skipBlanks (blanks ++ (w ++ rest)) = w ++ rest := by
  obtain ⟨c, cs, rfl, visible⟩ := reads.begins
  rw [Expression.skipBlanks_append blank]
  exact List.dropWhile_cons_of_neg (by simp [visible])

/-- Whether what follows a word of a level cannot be taken for a part of it. -/
def Clear (l : Level) (rest : List Char) : Prop :=
  ∀ c cs, rest = c :: cs → Alphabet.decimal.has c = false ∧ Alphabet.whitespace.has c = false ∧
    ∀ o : Operator, o.sign = c → l.rank < o.level.rank

namespace Clear

variable {l : Level} {rest : List Char}

theorem nil (l : Level) : Clear l [] := fun _ _ same => nomatch same

theorem below (clear : Clear l rest) : Clear l.below rest := by
  intro c cs same
  obtain ⟨digit, blank, operator⟩ := clear c cs same
  exact ⟨digit, blank, fun o sign => Nat.lt_of_le_of_lt l.rank_below_le (operator o sign)⟩

theorem parenthesis (l : Level) (rest : List Char) : Clear l (')' :: rest) := by
  rintro c cs same
  obtain ⟨rfl, rfl⟩ := List.cons.inj same
  refine ⟨rfl, rfl, fun o sign => absurd sign ?_⟩
  cases o <;> decide

/-- The operators of a chain are clear of its operands. -/
theorem operator {o : Operator} (member : o ∈ l.operators) (rest : List Char) :
    Clear l.below (o.sign :: rest) := by
  intro c cs same
  obtain ⟨rfl, rfl⟩ := List.cons.inj same
  refine ⟨by cases o <;> rfl, by cases o <;> rfl, fun o' sign => ?_⟩
  obtain rfl := Operator.sign_injective sign
  obtain rfl := Level.mem_operators_iff.mp member
  exact Level.rank_below_lt (by cases o' <;> nofun)

theorem dropWhile_decimal (clear : Clear l rest) :
    rest.dropWhile Alphabet.decimal.has = rest := by
  cases rest with
  | nil => rfl
  | cons c cs => exact List.dropWhile_cons_of_neg (by simp [(clear c cs rfl).1])

theorem takeWhile_decimal (clear : Clear l rest) : rest.takeWhile Alphabet.decimal.has = [] := by
  cases rest with
  | nil => rfl
  | cons c cs => exact List.takeWhile_cons_of_neg (by simp [(clear c cs rfl).1])

theorem skipBlanks (clear : Clear l rest) : GrammarKit.skipBlanks rest = rest := by
  cases rest with
  | nil => rfl
  | cons c cs => exact List.dropWhile_cons_of_neg (by simp [(clear c cs rfl).2.1])

/-- No operator of the level begins what is clear of it. -/
theorem sign_ne (clear : Clear l rest) {c : Char} {cs : List Char} (same : rest = c :: cs) :
    ∀ o ∈ l.operators, o.sign ≠ c := by
  intro o member sign
  have above := (clear c cs same).2.2 o sign
  rw [Level.mem_operators_iff.mp member] at above
  exact Nat.lt_irrefl _ above

end Clear

/-- Blanks between digits and what is clear of them end the digits as well. -/
theorem Clear.blanks_append {l : Level} {blanks rest : List Char} (blank : IsBlank blanks)
    (clear : Clear l rest) :
    (blanks ++ rest).takeWhile Alphabet.decimal.has = [] ∧
      (blanks ++ rest).dropWhile Alphabet.decimal.has = blanks ++ rest := by
  cases blanks with
  | nil => exact ⟨clear.takeWhile_decimal, clear.dropWhile_decimal⟩
  | cons c cs =>
    have digit := not_decimal_of_blank (blank c List.mem_cons_self)
    exact ⟨List.takeWhile_cons_of_neg (by simp [digit]),
      List.dropWhile_cons_of_neg (by simp [digit])⟩

/-- The first of some steps is clear of the operand before it. -/
theorem ReadsSteps.clear_of_ne_nil {l : Level} {w : List Char} {steps : Steps}
    (reads : ReadsSteps l w steps) (some_ : w ≠ []) (rest : List Char) :
    Clear l.below (w ++ rest) := by
  cases reads with
  | nil => exact absurd rfl some_
  | cons member _ _ _ => exact Clear.operator member _

theorem ReadsSteps.clear {l : Level} {w rest : List Char} {steps : Steps}
    (reads : ReadsSteps l w steps) (clear : Clear l rest) : Clear l.below (w ++ rest) := by
  by_cases none : w = []
  · subst none
    exact clear.below
  · exact reads.clear_of_ne_nil none rest

end GrammarKit.Expression
