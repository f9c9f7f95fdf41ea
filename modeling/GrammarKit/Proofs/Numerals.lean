import GrammarKit.Proofs.Characters

/-! # Numerals

The whole number at the beginning of a text: an optional sign and the longest run of digits after
it, if there is any. Reading a run of decimal digits gives the number that they write, unless these
are more digits than the runtime converts, and the parser of whole numbers yields exactly that.
-/

namespace GrammarKit

/-- The sign that a text begins with, if any, and what is after it. -/
def splitSign : List Char → List Char × List Char
  | c :: cs => if Alphabet.signs.has c then ([c], cs) else ([], c :: cs)
  | [] => ([], [])

/-- A sign, or none, and decimal digits. -/
structure Numeral where
  sign : List Char
  digits : List Char
deriving DecidableEq, Repr

namespace Numeral

/-- The number that the digits write, negated for a minus sign. -/
def value (numeral : Numeral) : Int :=
  if numeral.sign = ['-'] then -(Nat.ofDigitChars 10 numeral.digits 0 : Int)
  else Nat.ofDigitChars 10 numeral.digits 0

/-- What the runtime reads: the number, unless it has more digits than are converted. -/
def read (runtime : Runtime) (numeral : Numeral) : Except Error Value :=
  if runtime.converts numeral.digits.length then .ok (.int numeral.value) else .error .notNumeral

theorem read_eq_ok_iff {runtime : Runtime} {numeral : Numeral} {v : Value} :
    numeral.read runtime = .ok v ↔
      runtime.converts numeral.digits.length = true ∧ v = .int numeral.value := by
  rw [read]
  split
  · next within =>
    rw [Except.ok.injEq, eq_comm]
    exact (and_iff_right within).symm
  · next beyond => simp [beyond]

end Numeral

/-- The numeral that a text begins with, and what is after it. -/
def numeralAt? (cs : List Char) : Option (Numeral × List Char) :=
  let digits := (splitSign cs).2.takeWhile Alphabet.decimal.has
  if digits.isEmpty then none
  else some (⟨(splitSign cs).1, digits⟩, (splitSign cs).2.dropWhile Alphabet.decimal.has)

/-- What reading a numeral needs to know of a digit. -/
structure IsDigit (c : Char) : Prop where
  value : digitIn? 10 c = some (c.toNat - '0'.toNat)
  blank : isNumeralBlank c = false
  minus : c ≠ '-'
  plus : c ≠ '+'
  underscore : c ≠ '_'
  mark : markedBase? c = none
  counted : isDigitOfSomeBase c = true

theorem isDigit_of_has {c : Char} (digit : Alphabet.decimal.has c = true) : IsDigit c := by
  have all : Alphabet.decimal.members.all fun d =>
      digitIn? 10 d = some (d.toNat - '0'.toNat) ∧ isNumeralBlank d = false ∧ d ≠ '-' ∧ d ≠ '+' ∧
        d ≠ '_' ∧ markedBase? d = none ∧ isDigitOfSomeBase d = true := by
    decide
  obtain ⟨value, blank, minus, plus, underscore, mark, counted⟩ :=
    Alphabet.of_all_members all digit
  exact ⟨value, blank, minus, plus, underscore, mark, counted⟩

theorem readDigits_of_isDigit (n : Nat) {cs : List Char} (digits : ∀ c ∈ cs, IsDigit c) :
    readDigits 10 n cs = some (Nat.ofDigitChars 10 cs n) := by
  induction cs generalizing n with
  | nil => rw [readDigits, Nat.ofDigitChars_nil]
  | cons c cs ih =>
    have first := digits c List.mem_cons_self
    have others := ih (10 * n + (c.toNat - '0'.toNat)) fun d member =>
      digits d (List.mem_cons_of_mem _ member)
    rw [readDigits, Nat.ofDigitChars_cons, ← others, first.value, Nat.mul_comm]
    exact fun _ _ same => absurd same first.underscore

theorem trimNumeral_of_isDigit {cs : List Char} (digits : ∀ c ∈ cs, IsDigit c) :
    trimNumeral cs = cs := by
  have kept : ∀ ds : List Char, (∀ d ∈ ds, IsDigit d) → ds.dropWhile isNumeralBlank = ds := by
    intro ds all
    cases ds with
    | nil => rfl
    | cons d ds =>
      exact List.dropWhile_cons_of_neg (by simp [(all d List.mem_cons_self).blank])
  have backwards : ∀ d ∈ cs.reverse, IsDigit d :=
    fun d member => digits d (List.mem_reverse.mp member)
  rw [trimNumeral, kept cs digits, kept cs.reverse backwards, List.reverse_reverse]

theorem splitMark?_of_isDigit {cs : List Char} (digits : ∀ c ∈ cs, IsDigit c) :
    splitMark? 10 cs = none := by
  cases cs with
  | nil => rfl
  | cons c cs =>
    cases cs with
    | nil => rfl
    | cons d ds =>
      have second := digits d (List.mem_cons_of_mem c List.mem_cons_self)
      simp [splitMark?, second.mark]

/-- Decimal digits are read as the number they write. -/
theorem readNumeral?_of_isDigit {cs : List Char} (digits : ∀ c ∈ cs, IsDigit c)
    (some_ : cs ≠ []) : readNumeral? 10 cs = some (Nat.ofDigitChars 10 cs 0 : Int) := by
  cases cs with
  | nil => exact absurd rfl some_
  | cons c cs =>
    have first := digits c List.mem_cons_self
    have rest : ∀ d ∈ cs, IsDigit d := fun d member => digits d (List.mem_cons_of_mem _ member)
    have natural : readMagnitude? 10 (c :: cs) = some (Nat.ofDigitChars 10 (c :: cs) 0) := by
      have read := readDigits_of_isDigit (c.toNat - '0'.toNat) rest
      rw [readMagnitude?, splitMark?_of_isDigit digits, Nat.ofDigitChars_cons, Nat.mul_zero,
        Nat.zero_add, ← read]
      simp [readNatural?, first.value]
    rw [readNumeral?, trimNumeral_of_isDigit digits]
    split
    · next same => exact absurd (List.cons.inj same).1 first.minus
    · next same => exact absurd (List.cons.inj same).1 first.plus
    · rw [natural]
      rfl

/-- Every digit of a run is converted. -/
theorem convertedDigits_of_isDigit {cs : List Char} (digits : ∀ c ∈ cs, IsDigit c) :
    convertedDigits 10 cs = cs.length := by
  have magnitude : convertedMagnitude 10 cs = cs.length := by
    rw [convertedMagnitude, splitMark?_of_isDigit digits, if_neg (by simp),
      List.countP_eq_length.mpr fun c member => (digits c member).counted]
  rw [convertedDigits, trimNumeral_of_isDigit digits]
  split
  · exact absurd rfl (digits '-' List.mem_cons_self).minus
  · exact absurd rfl (digits '+' List.mem_cons_self).plus
  · exact magnitude

/-- Decimal digits are read as the number they write, if the runtime converts so many of them. -/
theorem Value.toInteger_of_isDigit (runtime : Runtime) {cs : List Char}
    (digits : ∀ c ∈ cs, IsDigit c) (some_ : cs ≠ []) :
    (Value.text cs).toInteger runtime =
      if runtime.converts cs.length then .ok (.int (Nat.ofDigitChars 10 cs 0))
      else .error .notNumeral := by
  change readInteger runtime 10 cs = _
  rw [readInteger, readNumeral?_of_isDigit digits some_, convertedDigits_of_isDigit digits]

namespace Effects

open GrammarKit.Parser

variable {b : Effects}

/-- The number of a sign and digits. -/
theorem gives_signed (numeral : Numeral) (all : ∀ c ∈ numeral.digits, IsDigit c)
    (some_ : numeral.digits ≠ []) :
    b.Gives (.function (.signed (.text numeral.sign))) [.text numeral.digits]
      (numeral.read b.runtime) := by
  have signed : b.Settles (fun _ => do
      let n ← (Value.text numeral.digits).toInteger (← Store.readResults).runtime
      if numeral.sign == ['-'] then n.negate else return n) (numeral.read b.runtime) := by
    refine (Settles.lift (numeral.read b.runtime)).congr fun n s start => ?_
    rw [Eval.readResults_bind, b.ran s start, Value.toInteger_of_isDigit _ all some_, Numeral.read]
    split
    · by_cases negative : numeral.sign = ['-']
      · rw [Numeral.value, if_pos negative, negative]
        rfl
      · rw [Numeral.value, if_neg negative, beq_eq_false_iff_ne.mpr negative]
        rfl
    · rfl
  exact .of_step (fun _ => rfl) ((settles_equal_text numeral.sign ['-']).bind signed)

/-- A run of digits after a sign is the numeral, if there are any. -/
theorem produces_digits (sign cs : List Char) :
    b.Produces (digits (.text sign)) (.text cs)
      (if (cs.takeWhile Alphabet.decimal.has).isEmpty then .ok [] else do
        return [⟨← Numeral.read b.runtime ⟨sign, cs.takeWhile Alphabet.decimal.has⟩,
          .text (cs.dropWhile Alphabet.decimal.has)⟩]) := by
  have many := ((matches_oneOf (b := b) .decimal).produces_many cs).yields
  have all : ∀ c ∈ cs.takeWhile Alphabet.decimal.has, IsDigit c :=
    fun c member => isDigit_of_has (List.all_eq_true.mp List.all_takeWhile c member)
  by_cases none : (cs.takeWhile Alphabet.decimal.has).isEmpty = true
  · rw [if_pos none] at many ⊢
    exact produces_step_nil many
  · rw [if_neg none] at many ⊢
    have some_ : cs.takeWhile Alphabet.decimal.has ≠ [] :=
      fun same => none (List.isEmpty_iff.mpr same)
    have given := gives_signed (b := b) ⟨sign, _⟩ all some_
    cases read : Numeral.read b.runtime ⟨sign, cs.takeWhile Alphabet.decimal.has⟩ with
    | ok v =>
      rw [read] at given
      obtain ⟨-, rfl⟩ := Numeral.read_eq_ok_iff.mp read
      exact produces_step rfl many given
        (yields_asParser (v := .int _) trivial (shows_int _) (shows_text _))
    | error e =>
      rw [read] at given
      exact produces_step_given_error rfl many given

/-- The sign of a numeral is consumed if it is there, also where no digit follows. -/
theorem yields_sign_or_none (cs : List Char) :
    b.Yields ((oneOf Alphabet.signs.values true).orElse [.text []]) (.text cs)
      (.ok [⟨.text (splitSign cs).1, .text (splitSign cs).2⟩]) := by
  have one := matches_oneOf (b := b) .signs
  have nothing (x : List Char) : b.Yields (asParser (.text [])) (.text x)
      (.ok [⟨.text [], .text x⟩]) :=
    yields_asParser trivial (shows_text _) (shows_text _)
  cases cs with
  | nil => exact (produces_orElse_right one.nil (nothing [])).yields
  | cons c cs =>
    have here := one.cons c cs
    by_cases signed : Alphabet.signs.has c = true
    · simp only [splitSign, if_pos signed] at here ⊢
      exact (produces_orElse_left here (nothing []).shown).yields
    · simp only [splitSign, if_neg signed] at here ⊢
      exact (produces_orElse_right here (nothing (c :: cs))).yields

/-- A whole number is read as far as its digits go; where no digit follows, nothing is. -/
theorem yields_integer (cs : List Char) :
    b.Yields integer (.text cs) (match numeralAt? cs with
      | some (numeral, rest) => do return [⟨← numeral.read b.runtime, .text rest⟩]
      | none => .ok []) := by
  have continues : b.Gives (.function .digits) [.text (splitSign cs).1]
      (.ok (.parser (digits (.text (splitSign cs).1)))) := gives_next fun _ => rfl
  have read := produces_step rfl (yields_sign_or_none cs) continues
    (produces_digits (splitSign cs).1 (splitSign cs).2).yields
  have same : (match numeralAt? cs with
      | some (numeral, rest) => do return [⟨← numeral.read b.runtime, .text rest⟩]
      | none => .ok []) = if ((splitSign cs).2.takeWhile Alphabet.decimal.has).isEmpty then .ok []
        else (do
          return [⟨← Numeral.read b.runtime ⟨(splitSign cs).1,
              (splitSign cs).2.takeWhile Alphabet.decimal.has⟩,
            .text ((splitSign cs).2.dropWhile Alphabet.decimal.has)⟩] :
              Except Error (List Derivation)) := by
    unfold numeralAt?
    by_cases missing : ((splitSign cs).2.takeWhile Alphabet.decimal.has).isEmpty = true
    · simp only [if_pos missing]
    · simp only [if_neg missing]
  rw [same]
  exact read.named rfl _

end Effects

end GrammarKit
