import GrammarKit.Proofs.Expression.Words

/-! # Printed arithmetic is read back

Arithmetic trees with one operator at each node, printed with parentheses only where the grammar
would read something else without them: around an operand that binds looser than its operator,
around a right operand of the same precedence if the operator associates to the left, and around
every left operand of a power but numbers. Any blanks may follow every token.

What is printed belongs to the grammar at the level of the tree's own operator. A printed operator
that associates to the left is one more step of the chain that its left operand is, one that
associates to the right is the first step of a chain that goes on with its right operand; so the
grammar gives the tree its value, whatever the order in which the operators are applied. Only a
number with more digits than the runtime converts is not read.
-/

namespace GrammarKit.Expression

open Effects

/-- An arithmetic tree: a whole number, or an operator between two trees. -/
inductive Arithmetic where
  | number (n : Int)
  | operation (o : Operator) (left right : Arithmetic)
deriving Repr

namespace Operator

/-- The loosest level that a left operand may have without parentheses. -/
def leftLevel (o : Operator) : Level := if o.level.rightmost then o.level.below else o.level

/-- The loosest level that a right operand may have without parentheses. -/
def rightLevel (o : Operator) : Level := if o.level.rightmost then o.level else o.level.below

end Operator

/-- What is printed without blanks in between. -/
inductive Token where
  | number (n : Int)
  | sign (o : Operator)
  | opening
  | closing
deriving Repr

/-- The characters of a token. Whole numbers are written in decimal. -/
def Token.text : Token → List Char
  | number n => intText n
  | sign o => [o.sign]
  | opening => ['(']
  | closing => [')']

namespace Arithmetic

/-- The value of a tree, or the first error on the way: the operands come before their operator. -/
def value : Arithmetic → Except Error Value
  | number n => .ok (.int n)
  | operation o left right => do
    let a ← left.value
    let b ← right.value
    o.apply a b

/-- Whether the digits of every number of a tree are no more than the runtime converts. -/
def converted (runtime : Runtime) : Arithmetic → Bool
  | number n => runtime.converts (natText n.natAbs).length
  | operation _ left right => left.converted runtime && right.converted runtime

/-- The value of a tree, where every number is read from its digits. -/
def read (runtime : Runtime) : Arithmetic → Except Error Value
  | number n =>
    if runtime.converts (natText n.natAbs).length then .ok (.int n) else .error .notNumeral
  | operation o left right => do
    let a ← left.read runtime
    let b ← right.read runtime
    o.apply a b

/-- Without a limit, the numbers of every tree are converted. -/
theorem converted_of_digits_eq_none {runtime : Runtime} (unlimited : runtime.digits = none)
    (e : Arithmetic) : e.converted runtime = true := by
  induction e with
  | number n => exact runtime.converts_of_digits_eq_none unlimited _
  | operation o left right first second => rw [converted, first, second]; rfl

/-- The level of the grammar that a tree belongs to without parentheses. -/
def level : Arithmetic → Level
  | number _ => .factor
  | operation o _ _ => o.level

/-- Tokens in parentheses, where these are needed. -/
def enclose (needed : Prop) [Decidable needed] (tokens : List Token) : List Token :=
  if needed then .opening :: (tokens ++ [.closing]) else tokens

/-- The tokens of a tree, with parentheses around operands that are looser than may be. -/
def tokens : Arithmetic → List Token
  | number n => [.number n]
  | operation o left right =>
    enclose (o.leftLevel.rank < left.level.rank) left.tokens ++
      .sign o :: enclose (o.rightLevel.rank < right.level.rank) right.tokens

end Arithmetic

/-- Whether a text is some tokens in order, with any blanks after each of them. -/
inductive LaidOut : List Token → List Char → Prop where
  | nil : LaidOut [] []
  | cons {token : Token} {tokens : List Token} {rest : List Char} (blanks : List Char) :
    IsBlank blanks → LaidOut tokens rest → LaidOut (token :: tokens) (token.text ++ blanks ++ rest)

theorem LaidOut.exists_of_append {first second : List Token} {w : List Char}
    (laid : LaidOut (first ++ second) w) :
    ∃ u v, w = u ++ v ∧ LaidOut first u ∧ LaidOut second v := by
  induction first generalizing w with
  | nil => exact ⟨[], w, rfl, .nil, laid⟩
  | cons token first ih =>
    cases laid with
    | cons blanks blank laid =>
      obtain ⟨u, v, rfl, head, tail⟩ := ih laid
      exact ⟨_, v, by simp, .cons blanks blank head, tail⟩

theorem LaidOut.exists_of_cons {token : Token} {tokens : List Token} {w : List Char}
    (laid : LaidOut (token :: tokens) w) :
    ∃ blanks rest, w = token.text ++ blanks ++ rest ∧ IsBlank blanks ∧ LaidOut tokens rest := by
  cases laid with
  | cons blanks blank laid => exact ⟨blanks, _, rfl, blank, laid⟩

/-! ## Numbers in decimal -/

theorem isDigits_natText (n : Nat) : IsDigits (natText n) :=
  ⟨Nat.toDigits_ne_nil, fun _ member =>
    (Alphabet.has_decimal _).trans (Nat.isDigit_of_mem_toDigits (by decide) (by decide) member)⟩

/-- A printed number is a numeral of its value. -/
theorem exists_of_intText (n : Int) : ∃ numeral : Numeral, IsSign numeral.sign ∧
    IsDigits numeral.digits ∧ intText n = numeral.sign ++ numeral.digits ∧ numeral.value = n ∧
    numeral.digits.length = (natText n.natAbs).length := by
  have read (k : Nat) : Nat.ofDigitChars 10 (natText k) 0 = k :=
    Nat.ofDigitChars_toDigits (by decide) (by decide)
  by_cases negative : n < 0
  · refine ⟨⟨['-'], natText n.natAbs⟩, .inr (.inr rfl), isDigits_natText _, ?_, ?_, rfl⟩
    · rw [intText, if_pos negative]
      rfl
    · rw [Numeral.value, if_pos rfl, read]
      omega
  · refine ⟨⟨[], natText n.natAbs⟩, .inl rfl, isDigits_natText _, ?_, ?_, rfl⟩
    · rw [intText, if_neg negative]
      rfl
    · rw [Numeral.value, if_neg (by simp), read]
      omega

/-! ## Longer chains -/

/-- Steps with one more after them. -/
def Steps.concat : Steps → Operator → Tree → Steps
  | .nil, o, operand => .cons o operand .nil
  | .cons o' operand' rest, o, operand => .cons o' operand' (rest.concat o operand)

variable {runtime : Runtime}

theorem ReadsSteps.concat {o : Operator} {b : Tree} {blanks operand : List Char}
    (blank : IsBlank blanks) : ∀ {l : Level} {w : List Char} {steps : Steps},
    ReadsSteps l w steps → o ∈ l.operators → Reads l.below operand b →
      ReadsSteps l (w ++ o.sign :: (blanks ++ operand)) (steps.concat o b)
  | _, _, _, .nil, member, reads => by
    have last := ReadsSteps.cons member blank reads .nil
    rwa [List.append_nil] at last
  | _, _, _, .cons member' blank' reads' rest, member, reads => by
    have longer := ReadsSteps.cons member' blank' reads' (rest.concat blank member reads)
    simpa [Steps.concat] using longer

/-- A single operand is a chain of the value that it has. -/
theorem Reads.of_below {l : Level} {w : List Char} {t : Tree} (chain : l ≠ .factor)
    (reads : Reads l.below w t) : ∃ t', Reads l w t' ∧ t'.value runtime = t.value runtime := by
  refine ⟨.chain l.rightmost t .nil, ?_, ?_⟩
  · have single := Reads.chain chain reads .nil
    rwa [List.append_nil] at single
  · have folded (a : Value) : foldWith Operator.apply l.rightmost a [] = .ok a := by
      cases l <;> rfl
    simp only [Tree.value, Steps.values]
    change (t.value runtime >>= fun a => foldWith Operator.apply l.rightmost a []) = t.value runtime
    simp only [folded]
    exact bind_pure _

theorem Level.rank_le_below {l l' : Level} (tighter : l.rank ≤ l'.rank) (other : l ≠ l') :
    l' ≠ .factor ∧ l.rank ≤ l'.below.rank := by
  cases l <;> cases l' <;> simp_all [rank, below]

/-- A word of a level is one of every looser level, with the same value. -/
theorem Reads.loosen {l l' : Level} {w : List Char} {t : Tree} (reads : Reads l w t)
    (tighter : l.rank ≤ l'.rank) : ∃ t', Reads l' w t' ∧ t'.value runtime = t.value runtime := by
  by_cases same : l = l'
  · subst same
    exact ⟨t, reads, rfl⟩
  · obtain ⟨chain, below⟩ := Level.rank_le_below tighter same
    obtain ⟨t₁, reads₁, value₁⟩ := reads.loosen below
    obtain ⟨t₂, reads₂, value₂⟩ := Reads.of_below chain reads₁
    exact ⟨t₂, reads₂, value₂.trans value₁⟩
termination_by l'.rank
decreasing_by exact Level.rank_below_lt chain

/-! ## Printed trees are words -/

/-- Whether two computations have the same value, if any; their errors may differ. -/
def Agree (x y : Except Error Value) : Prop := ∀ v, x = .ok v ↔ y = .ok v

theorem Agree.of_eq {x y : Except Error Value} (same : x = y) : Agree x y := fun _ => same ▸ Iff.rfl

theorem Agree.bind {x x' y y' : Except Error Value} (first : Agree x x') (second : Agree y y')
    (f : Value → Value → Except Error Value) :
    Agree (x >>= fun a => y >>= f a) (x' >>= fun a => y' >>= f a) := by
  intro v
  simp only [Except.bind_eq_ok_iff, first _, second _]

theorem Agree.error {x y : Except Error Value} {e : Error} (agree : Agree x y)
    (error : y = .error e) : ∃ e', x = .error e' := by
  cases x with
  | ok v =>
    have value := (agree v).mp rfl
    rw [error] at value
    cases value
  | error e' => exact ⟨e', rfl⟩

/-- Whether a text is a word of a level that has the value of a tree. -/
def ReadsAs (runtime : Runtime) (l : Level) (w : List Char) (e : Arithmetic) : Prop :=
  ∃ t, Reads l w t ∧ Agree (t.value runtime) (e.read runtime)

namespace ReadsAs

variable {l : Level} {w : List Char} {e left right : Arithmetic} {o : Operator}

theorem loosen {l' : Level} (reads : ReadsAs runtime l w e) (tighter : l.rank ≤ l'.rank) :
    ReadsAs runtime l' w e := by
  obtain ⟨t, reads, agree⟩ := reads
  obtain ⟨t', reads', value⟩ := reads.loosen tighter
  exact ⟨t', reads', value ▸ agree⟩

/-- A number is one. -/
theorem number {n : Int} {blanks : List Char} (blank : IsBlank blanks) :
    ReadsAs runtime .factor (intText n ++ blanks) (.number n) := by
  obtain ⟨numeral, signed, some_, text, value, count⟩ := exists_of_intText n
  refine ⟨.number numeral, ?_, .of_eq ?_⟩
  · have reads := Reads.number signed some_ blank
    rwa [← text] at reads
  · rw [Tree.value, Numeral.read, Arithmetic.read, value, count]

/-- Printed in parentheses where these are needed, a tree fits any level. -/
theorem enclose (inner : ∀ w, LaidOut e.tokens w → ReadsAs runtime e.level w e)
    (laid : LaidOut (Arithmetic.enclose (l.rank < e.level.rank) e.tokens) w) :
    ReadsAs runtime l w e := by
  unfold Arithmetic.enclose at laid
  split at laid
  · obtain ⟨before, rest, rfl, blank, laid⟩ := laid.exists_of_cons
    obtain ⟨u, v, rfl, body, closing⟩ := laid.exists_of_append
    obtain ⟨after, rest, rfl, blank', ended⟩ := closing.exists_of_cons
    cases ended
    have sum : e.level.rank ≤ Level.sum.rank := by cases e.level <;> decide
    obtain ⟨t, reads, agree⟩ := (inner u body).loosen sum
    have brackets : ReadsAs runtime .factor ('(' :: (before ++ u ++ ')' :: after)) e :=
      ⟨t, .parentheses blank reads blank', agree⟩
    have lowest : Level.factor.rank ≤ l.rank := Nat.zero_le _
    simpa [Token.text] using brackets.loosen lowest
  · next loose => exact (inner w laid).loosen (Nat.le_of_not_lt loose)

end ReadsAs

end GrammarKit.Expression
