import GrammarKit.Evaluation.Interpreter
import GrammarKit.Proofs.Runs

/-! # Characters

What the parsers of single characters yield on a text, what their repetitions consume, and the
blanks after a token. A parser that matches characters fails without an error on every other text,
so its repetitions take the longest run of matching characters.
-/

namespace GrammarKit

/-- Whether a character is a member of a named set. -/
def Alphabet.has (a : Alphabet) (c : Char) : Bool := a.members.contains c

/-- What a computation finds true of all members is true of each. -/
theorem Alphabet.of_all_members {a : Alphabet} {P : Char → Prop} [DecidablePred P]
    (all : a.members.all fun c => P c) {c : Char} (member : a.has c = true) : P c :=
  of_decide_eq_true (List.all_eq_true.mp all c (List.contains_iff_mem.mp member))

/-- What a set has can be told by a predicate if it holds of the members and of no other character
among the first ones, where it may hold. -/
theorem Alphabet.has_eq {a : Alphabet} {φ : Char → Bool} (holds : a.members.all φ = true)
    (ascii : ∀ c, φ c = true → c.toNat < 128)
    (all : ∀ k : Fin 128, φ (Char.ofNat k) = true → a.has (Char.ofNat k) = true) (c : Char) :
    a.has c = φ c := by
  rw [Bool.eq_iff_iff]
  constructor
  · exact fun member => List.all_eq_true.mp holds c (List.contains_iff_mem.mp member)
  · intro here
    have inside := all ⟨c.toNat, ascii c here⟩
    rw [Char.ofNat_toNat] at inside
    exact inside here

theorem toNat_lt_of_isAlphanum {c : Char} (holds : c.isAlphanum = true) : c.toNat < 128 := by
  delta Char.isAlphanum Char.isAlpha Char.isUpper Char.isLower Char.isDigit at holds
  simp only [Char.reduceVal, ge_iff_le, UInt32.le_iff_toNat_le, UInt32.reduceToNat, Char.toNat_val,
    Bool.decide_and, Bool.or_eq_true, Bool.and_eq_true, decide_eq_true_eq] at holds
  omega

theorem Alphabet.has_decimal (c : Char) : decimal.has c = c.isDigit :=
  has_eq (by decide +kernel)
    (fun c holds => toNat_lt_of_isAlphanum (by rw [Char.isAlphanum, holds, Bool.or_true]))
    (by decide +kernel) c

theorem Alphabet.has_alphabetic (c : Char) : alphabetic.has c = c.isAlpha :=
  has_eq (by decide +kernel)
    (fun c holds => toNat_lt_of_isAlphanum (by rw [Char.isAlphanum, holds, Bool.true_or]))
    (by decide +kernel) c

theorem Alphabet.has_alphanumeric (c : Char) : alphanumeric.has c = c.isAlphanum := by
  have members : alphanumeric.members = decimal.members ++ alphabetic.members := by
    decide +kernel
  have either : alphanumeric.has c = (decimal.has c || alphabetic.has c) := by
    rw [has, members, List.contains_append]
    rfl
  rw [either, has_decimal, has_alphabetic, Char.isAlphanum, Bool.or_comm]

/-- A text without the blanks at its beginning. -/
def skipBlanks (cs : List Char) : List Char := cs.dropWhile Alphabet.whitespace.has

/-- Texts are joined. -/
theorem accumulateValues_texts (parts : List (List Char)) :
    accumulateValues (.strategy .text) (parts.map Value.text) = .ok (.text parts.flatten) := by
  change accumulateValues.concatenate _ = _
  induction parts with
  | nil => rfl
  | cons cs parts ih =>
    rw [List.map_cons, accumulateValues.concatenate, ih]
    rfl

theorem accumulateValues_ofChars (cs : List Char) :
    accumulateValues (.strategy .text) (Value.ofChars cs) = .ok (.text cs) := by
  have joined := accumulateValues_texts (cs.map fun c => [c])
  rw [List.map_map, ← List.flatMap_def, List.flatMap_singleton'] at joined
  exact joined

/-- The entries of an operator table, each a sign and what it stands for. -/
def Parser.operatorTable (operators : List (Char × Primitive)) : List (Parser × Value) :=
  operators.map fun entry => (sign entry.1, operatorOf entry.2)

namespace Value

/-- The texts of any depth are compared by their characters. -/
theorem equal_text (results : Results) (fuel : Nat) (cs ds : List Char) :
    equal results fuel (.text cs) (.text ds) = .ok (cs == ds) := by
  cases fuel <;> rfl

theorem anyEqual_ofChars (results : Results) (fuel : Nat) (c : Char) (cs : List Char) :
    anyEqual results fuel (.text [c]) (ofChars cs) = .ok (cs.contains c) := by
  induction cs with
  | nil => rfl
  | cons d cs ih =>
    have told : orSame results (equal results fuel) (.text [d]) (.text [c]) = .ok ([d] == [c]) :=
      orSame_of_eq_ok (equal_text results fuel [d] [c]) fun same => by
        rw [Value.text.inj same]
        simp
    simp only [ofChars, List.map_cons, anyEqual, told] at ih ⊢
    by_cases same : d = c
    · subst same
      simp [bind, Except.bind, pure, Except.pure]
    · have other : ([d] == [c]) = false := by simpa using same
      simp [bind, Except.bind, other, ih, Ne.symm same]

end Value

namespace Effects

open GrammarKit.Parser

variable {b : Effects} {p : Parser} {φ : Char → Bool}

/-- Whether a parser consumes one character, of those for which `φ` holds, and fails elsewhere. -/
structure Matches (b : Effects) (p : Parser) (φ : Char → Bool) : Prop where
  nil : b.Yields p (.text []) (.ok [])
  cons : ∀ c cs, b.Yields p (.text (c :: cs)) (.ok (if φ c then [⟨.text [c], .text cs⟩] else []))

theorem gives_constant (v w : Value) : b.Gives (.function (.constant v)) [w] (.ok v) :=
  .of_step (fun _ => rfl) (Settles.lift (.ok v))

/-- Texts are compared without effects. -/
theorem settles_equal_text (cs ds : List Char) :
    b.Settles (fun ev => ev.equal (.text cs) (.text ds)) (.ok (cs == ds)) :=
  .of_deep 0 fun n s => by
    change (liftM (Value.equal s.results (evaluator n).fuel (.text cs) (.text ds)) : Eval Bool) s =
      _
    rw [Value.equal_text]
    rfl

theorem gives_equals_text (cs ds : List Char) :
    b.Gives (.function (.equals (.text cs))) [.text ds] (.ok (.bool (ds == cs))) :=
  .of_step (fun _ => rfl)
    ((settles_equal_text ds cs).bind (Settles.lift (.ok (Value.bool (ds == cs)))))

/-- Whether a character is among others is told without effects. -/
theorem gives_oneOf (members : List Char) (inside : Bool) (c : Char) :
    b.Gives (.function (.oneOf (Value.ofChars members) inside)) [.text [c]]
      (.ok (.bool (members.contains c == inside))) := by
  refine .of_step (fun _ => rfl) (Settles.of_deep 0 fun n s => ?_)
  have told := Value.anyEqual_ofChars s.results (evaluator n).fuel c members
  refine Eval.bind_of_eq_ok (a := members.contains c) (t := s) ?_ _
  change (liftM (Value.anyEqual s.results (evaluator n).fuel (.text [c]) (Value.ofChars members)) :
    Eval Bool) s = _
  rw [told]
  rfl

/-- The truth of a Boolean value. -/
theorem Decides.of_gives {condition v : Value} {h : Bool}
    (given : b.Gives condition [v] (.ok (.bool h))) : b.Decides condition v (.ok h) :=
  given.bind ((Settles.lift (.ok h)).congr fun _ _ _ => rfl)

/-- One character that passes a test. -/
theorem produces_satisfy {condition : Value} {c : Char} {h : Bool}
    (decides : b.Decides condition (.text [c]) (.ok h)) (cs : List Char) :
    b.Produces (item.satisfy condition) (.text (c :: cs))
      (.ok (if h then [⟨.text [c], .text cs⟩] else [])) := by
  refine produces_step rfl (yields_item_cons c cs) (gives_test decides) ?_
  cases h with
  | true => exact yields_result (shows_text _) (shows_text _) (by nofun)
  | false => exact yields_zero (shows_text _)

/-- A test that tells of each character whether `φ` holds, with a name or without one. -/
theorem matches_satisfy {condition : Value}
    (decides : ∀ c, b.Decides condition (.text [c]) (.ok (φ c))) :
    b.Matches (item.satisfy condition) φ ∧
      ∀ cs, b.Matches ((item.satisfy condition).named (.text cs)) φ := by
  have none : b.Produces (item.satisfy condition) (.text []) (.ok []) :=
    produces_step_nil yields_item_nil
  have one (c : Char) (cs : List Char) : b.Produces (item.satisfy condition) (.text (c :: cs))
      (.ok (if φ c then [⟨.text [c], .text cs⟩] else [])) := produces_satisfy (decides c) cs
  exact ⟨⟨none.yields, fun c cs => (one c cs).yields⟩,
    fun name => ⟨none.named rfl name, fun c cs => (one c cs).named rfl name⟩⟩

/-- What the parser of the members of a set, with a name or without one, matches. -/
theorem matches_members (members : List Char) :
    b.Matches (oneOf (Value.ofChars members) true) members.contains ∧
      ∀ cs, b.Matches ((oneOf (Value.ofChars members) true).named (.text cs))
        members.contains := by
  refine matches_satisfy fun c => .of_gives ?_
  have given := gives_oneOf (b := b) members true c
  rwa [beq_true] at given

theorem matches_oneOf (a : Alphabet) : b.Matches (oneOf a.values true) a.has :=
  (matches_members a.members).1

theorem matches_charText (c : Char) : b.Matches (charText [c]) (· == c) := by
  refine (matches_satisfy fun d => .of_gives ?_).2 _
  have given := gives_equals_text (b := b) [c] [d]
  rwa [show ([d] == [c]) = (d == c) by simp] at given

/-! ## Longest runs -/

/-- Repetitions of a parser of characters run to the first one that does not match. -/
theorem Matches.runs (one : b.Matches p φ) (cs : List Char) :
    b.Runs p (.text cs)
      (.ok (Value.ofChars (cs.takeWhile φ), .text (cs.dropWhile φ))) := by
  induction cs with
  | nil => exact .stop one.nil
  | cons c cs ih =>
    have here := one.cons c cs
    by_cases holds : φ c = true
    · rw [if_pos holds] at here
      rw [List.takeWhile_cons_of_pos holds, List.dropWhile_cons_of_pos holds]
      exact .next here trivial (Nat.lt_succ_self _) ih
    · rw [if_neg holds] at here
      rw [List.takeWhile_cons_of_neg holds, List.dropWhile_cons_of_neg holds]
      exact .stop here

/-- One or more characters, as many as match. -/
theorem Matches.produces_many (one : b.Matches p φ) (cs : List Char) :
    b.Produces (p.many .text) (.text cs) (.ok (if (cs.takeWhile φ).isEmpty then []
      else [⟨.text (cs.takeWhile φ), .text (cs.dropWhile φ)⟩])) := by
  have many := (one.runs cs).produces_many (.strategy .text) trivial
  have joined := accumulateValues_ofChars (cs.takeWhile φ)
  cases taken : cs.takeWhile φ with
  | nil =>
    rw [taken] at many
    exact many
  | cons d ds =>
    rw [taken] at many joined
    change b.Produces _ _ (do return [⟨← accumulateValues _ (Value.ofChars (d :: ds)), _⟩]) at many
    rw [joined] at many
    exact many

/-- Zero or more characters, as many as match. -/
theorem Matches.produces_manyOrNone (one : b.Matches p φ) (cs : List Char) :
    b.Produces (p.manyOrNone .missing .text) (.text cs)
      (.ok [⟨.text (cs.takeWhile φ), .text (cs.dropWhile φ)⟩]) := by
  have many := (one.runs cs).produces_manyOrNone .text trivial
  change b.Produces _ _ (do
    return [⟨← accumulateValues _ (Value.ofChars (cs.takeWhile φ)), _⟩]) at many
  rw [accumulateValues_ofChars] at many
  exact many

/-! ## Tokens -/

theorem yields_whitespace (cs : List Char) :
    b.Yields whitespace (.text cs)
      (.ok [⟨.text (cs.takeWhile Alphabet.whitespace.has), .text (skipBlanks cs)⟩]) :=
  ((matches_oneOf .whitespace).produces_manyOrNone cs).named rfl _

/-- The value of a step that keeps what it was given. -/
theorem produces_step_constant {q : Parser} {x v w : Value} {cs : List Char} (plain : v.IsPlain)
    (shown : b.Shows v) (first : b.Yields q x (.ok [⟨w, .text cs⟩])) :
    b.Produces (q.step (.constant v)) x (.ok [⟨v, .text cs⟩]) :=
  produces_step rfl first (gives_constant v w)
    (yields_asParser plain shown (shows_text cs))

/-- A token takes the blanks after it. -/
theorem produces_token {x v : Value} {cs : List Char} (plain : v.IsPlain) (shown : b.Shows v)
    (first : b.Yields p x (.ok [⟨v, .text cs⟩])) :
    b.Produces p.token x (.ok [⟨v, .text (skipBlanks cs)⟩]) := by
  have skips : b.Gives (Value.function .skipSpace) [v]
      (.ok (.parser (whitespace.step (.constant v)))) :=
    gives_next fun _ => rfl
  exact produces_step rfl first skips
    (produces_step_constant plain shown (yields_whitespace cs)).yields

/-- A sign is matched with the blanks after it. -/
theorem yields_sign (c d : Char) (cs : List Char) :
    b.Yields (sign c) (.text (d :: cs))
      (.ok (if d == c then [⟨.text [d], .text (skipBlanks cs)⟩] else [])) := by
  have one := (matches_charText (b := b) c).cons d cs
  by_cases same : (d == c) = true
  · rw [if_pos same] at one ⊢
    have plain : (Value.text [d]).IsPlain := trivial
    exact (produces_token plain (shows_text _) one).yields
  · rw [if_neg same] at one ⊢
    exact (produces_step_nil one).yields

theorem yields_sign_nil (c : Char) : b.Yields (sign c) (.text []) (.ok []) :=
  (produces_step_nil (matches_charText c).nil).yields

/-! ## Operator tables -/

variable {table : Parser} {x : Value}

/-- Later entries have no part in what an earlier one matches. -/
private theorem yields_foldl_of_yields (operators : List (Char × Primitive)) {d : Derivation}
    {ds : List Derivation} (first : b.Yields table x (.ok (d :: ds))) :
    b.Yields ((operatorTable operators).foldl
      (fun table pair => table.orElse [.parser (pair.1.step (.constant pair.2))]) table)
        x (.ok (d :: ds)) := by
  induction operators generalizing table with
  | nil => exact first
  | cons entry operators ih =>
    have other : b.Shows ((sign entry.1).step (.constant (operatorOf entry.2))).toValue :=
      shows_bind (yields_sign_nil entry.1).shown _ _
    exact ih (produces_orElse_left (v := .parser _) first other).yields

private theorem yields_foldl_operatorTable (c : Char) (cs : List Char)
    (operators : List (Char × Primitive)) (first : b.Yields table (.text (c :: cs)) (.ok [])) :
    b.Yields ((operatorTable operators).foldl
      (fun table pair => table.orElse [.parser (pair.1.step (.constant pair.2))]) table)
        (.text (c :: cs)) (.ok (match operators.lookup c with
          | some o => [⟨operatorOf o, .text (skipBlanks cs)⟩]
          | none => [])) := by
  induction operators generalizing table with
  | nil => exact first
  | cons entry operators ih =>
    obtain ⟨d, o⟩ := entry
    have matched := yields_sign (b := b) d c cs
    rw [List.lookup_cons]
    cases same : c == d with
    | true =>
      rw [same, if_pos rfl] at matched
      have entry := (produces_step_constant (v := operatorOf o) trivial (shows_function _)
        matched).yields
      have here := (produces_orElse_right (v := .parser _) first entry).yields
      exact yields_foldl_of_yields operators here
    | false =>
      rw [same, if_neg Bool.false_ne_true] at matched
      have entry := (produces_step_nil (f := .constant (operatorOf o)) matched).yields
      exact ih (produces_orElse_right (v := .parser _) first entry).yields

/-- An operator table matches its signs, with the blanks after them. -/
theorem yields_operations (operators : List (Char × Primitive)) (c : Char) (cs : List Char) :
    b.Yields (operations (operatorTable operators)) (.text (c :: cs))
      (.ok (match operators.lookup c with
        | some o => [⟨operatorOf o, .text (skipBlanks cs)⟩]
        | none => [])) :=
  yields_foldl_operatorTable c cs operators (yields_zero (shows_text _))

theorem yields_operations_nil (operators : List (Char × Primitive)) :
    b.Yields (operations (operatorTable operators)) (.text []) (.ok []) := by
  suffices all : ∀ table : Parser, b.Yields table (.text []) (.ok []) →
      b.Yields ((operatorTable operators).foldl (fun table pair =>
        table.orElse [.parser (pair.1.step (.constant pair.2))]) table) (.text []) (.ok [])
    from all zero (yields_zero (shows_text _))
  induction operators with
  | nil => exact fun _ first => first
  | cons entry operators ih =>
    intro table first
    have second := (produces_step_nil (f := .constant (operatorOf entry.2))
      (yields_sign_nil (b := b) entry.1)).yields
    exact ih _ (produces_orElse_right (v := .parser _) first second).yields

end Effects

end GrammarKit
