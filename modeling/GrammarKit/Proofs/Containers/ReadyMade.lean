import GrammarKit.Proofs.Containers.Steps
import GrammarKit.Proofs.Expression.Failures

/-! # Ready-made parsers read any container

The ready-made parsers of characters, words, numbers, operators and expressions are uniform, and so
is everything that the combinators put together from them. So it does not matter to any of them
whether a string comes as a text or as a list or tuple of its characters. The grammar of expressions
refers to itself, but only behind a parenthesis, so for it the induction is on how long the strings
may be.
-/

namespace GrammarKit

/-- The ready-made parsers, and what the combinators put together from them, with ordinary values in
the place of parsers where these have an alternative. To trim a parser is to put it between junk,
which is whitespace unless it is given. -/
inductive Parser.ReadyMade : Parser → Prop where
  | whitespace : ReadyMade .whitespace
  | letter : ReadyMade .letter
  | digit : ReadyMade .digit
  | identifier : ReadyMade .identifier
  | integer : ReadyMade .integer
  | addOp : ReadyMade .addOp
  | mulOp : ReadyMade .mulOp
  | powOp : ReadyMade .powOp
  | expression : ReadyMade .expression
  | char (cs shown : List Char) : ReadyMade (.char (.text cs) shown)
  | literal {results : Results} {cs : List Char} {p : Parser} (shown : List Char)
      (made : Parser.item.startsWith results (.text cs) (.bool false) = .ok p) :
      ReadyMade (p.named (nameAround "literal" shown))
  | result {v : Value} (ordinary : v.IsOrdinary) : ReadyMade (.result v)
  | token {p : Parser} (made : ReadyMade p) : ReadyMade p.token
  | between {p left right : Parser} (made : ReadyMade p) (opening : ReadyMade left)
      (closing : ReadyMade right) : ReadyMade (p.between left right)
  | orElse {p : Parser} {alternatives : List Value} (made : ReadyMade p)
      (others : ∀ v ∈ alternatives, ReadyMade (asParser v)) : ReadyMade (p.orElse alternatives)
  | many {p : Parser} (made : ReadyMade p) (s : Strategy) : ReadyMade (p.many s)
  | manyOrNone {p : Parser} {empty : Value} (made : ReadyMade p) (s : Strategy)
      (other : empty ≠ .missing → ReadyMade (asParser empty)) : ReadyMade (p.manyOrNone empty s)
  | sepBy {p separator : Parser} {empty : Value} (made : ReadyMade p)
      (separating : ReadyMade separator) (other : ReadyMade (asParser empty)) :
      ReadyMade (p.sepBy separator empty)
  | chain {p operator : Parser} {fallback : Value} (made : ReadyMade p)
      (operating : ReadyMade operator) (rightmost : Bool)
      (other : fallback ≠ .missing → ReadyMade (asParser fallback)) :
      ReadyMade (p.chain operator rightmost fallback)

/-- Whether what stands in parentheses can be shown, should messages be recorded, and maps ordinary
values to ordinary ones, if it maps any. -/
structure Expression.Prepared (s : Store) (inner : Parser) : Prop extends Stands s inner where
  shown : (making s inner).Shows inner.toValue
  maps : ∀ f, inner.mapping = some f → (making s inner).Maps f

theorem Expression.Ready.prepared {s : Store} {inner : Parser} (ready : Ready s inner) :
    Prepared s inner :=
  ⟨ready.toStands, ready.copy.shows, fun _ same => nomatch ready.copy.mapping.symm.trans same⟩

namespace Effects

variable {b : Effects} {s : Store} {p inner : Parser} {limit : Nat}

/-! ## Operators -/

/-- An operator table with ordinary values. -/
theorem UniformBelow.operations (pairs : List (Parser × Value))
    (all : ∀ pair ∈ pairs, b.UniformBelow limit pair.1 ∧ pair.2.IsOrdinary) :
    b.UniformBelow limit (.operations pairs) := by
  have longer (table : Parser) (first : b.UniformBelow limit table) :
      b.UniformBelow limit (pairs.foldl
        (fun table pair => table.orElse [.parser (pair.1.step (.constant pair.2))]) table) := by
    induction pairs generalizing table with
    | nil => exact first
    | cons pair pairs ih =>
      obtain ⟨⟨matcher, ordinary⟩, others⟩ := List.forall_mem_cons.mp all
      refine ih others _ (first.orElse (List.forall_mem_singleton.mpr ?_))
      exact matcher.bind (follows_constant ordinary)
  exact longer .zero fun cs _ => uniform_zero cs _

/-- An operator sign, of which a character is consumed. -/
theorem uniform_sign (c : Char) (cs : List Char) : b.Uniform (.sign c) cs cs.length :=
  (uniform_char [c] _ cs).token

theorem uniformBelow_sign (c : Char) : b.UniformBelow limit (.sign c) :=
  fun cs _ => (uniform_sign c cs).mono (Nat.le_succ _)

theorem uniform_operators (operators : List Expression.Operator) : b.UniformBelow limit
    (.operations (operators.map fun o => (.sign o.sign, o.function))) :=
  .operations _ (List.forall_mem_map.mpr fun o _ => ⟨uniformBelow_sign o.sign, .operator o⟩)

theorem uniform_addOp : b.UniformBelow limit .addOp := uniform_operators [.add, .subtract]

theorem uniform_mulOp : b.UniformBelow limit .mulOp := uniform_operators [.multiply, .divide]

theorem uniform_powOp : b.UniformBelow limit .powOp := uniform_operators [.power]

/-! ## Expressions -/

/-- What stands behind a parenthesis is shorter. -/
theorem UniformBelow.parentheses (inner : b.UniformBelow limit p) :
    b.UniformBelow (limit + 1) (p.between (.sign '(') (.sign ')')) := by
  intro cs short
  have body : b.UniformBelow cs.length p := inner.mono (Nat.le_of_lt_succ short)
  exact ((uniform_sign '(' cs).bind (follows_body body (uniformBelow_sign ')'))).mono
    (Nat.le_succ _)

theorem UniformBelow.arithmetic (inner : b.UniformBelow limit p) :
    b.UniformBelow (limit + 1) (.arithmetic p) := by
  have number : b.UniformBelow (limit + 1) (Parser.token .integer) := fun cs short =>
    (uniform_integer cs short).token
  have factor : b.UniformBelow (limit + 1) (.factor p) :=
    number.orElse (List.forall_mem_singleton.mpr inner.parentheses)
  have power := factor.chain uniform_powOp true (absurd rfl)
  have term := power.chain uniform_mulOp false (absurd rfl)
  exact term.chain uniform_addOp false (absurd rfl)

/-- What stands in parentheses is uniform on strings of any length if it is on shorter ones. -/
theorem uniform_inner (prepared : Expression.Prepared s inner) (limit : Nat) :
    (Expression.making s inner).UniformBelow limit inner := by
  induction limit with
  | zero => exact fun cs short => absurd short (Nat.not_lt_zero _)
  | succ limit ih =>
    exact fun cs short => .lazy prepared.shape prepared.shown prepared.maps
      (prepared.resolves_inner prepared.shown) (ih.arithmetic cs short)

/-- Expressions are uniform, as what stands in parentheses is. -/
theorem uniform_expression (prepared : Expression.Prepared s inner) (limit : Nat) :
    (Expression.making s inner).UniformBelow limit .expression := fun cs short =>
  .lazy rfl Expression.IsCopy.unnamed.shows nofun prepared.resolves
    ((uniform_inner prepared limit).arithmetic cs (Nat.lt_succ_of_lt short))

/-- Whatever is put together from the ready-made parsers is uniform. -/
theorem uniform_of_readyMade (prepared : Expression.Prepared s inner) (made : p.ReadyMade)
    (limit : Nat) : (Expression.making s inner).UniformBelow limit p := by
  induction made with
  | whitespace => exact uniform_whitespace
  | letter => exact uniform_letter
  | digit => exact uniform_digit
  | identifier => exact uniform_identifier
  | integer => exact uniform_integer
  | addOp => exact uniform_addOp
  | mulOp => exact uniform_mulOp
  | powOp => exact uniform_powOp
  | expression => exact uniform_expression prepared limit
  | char cs shown => exact uniformBelow_char cs shown
  | literal shown made =>
    obtain ⟨c, rest, -, rfl⟩ := Parser.eq_speller_of_startsWith made
    have item : (Expression.making s inner).UniformBelow limit .item := fun cs _ =>
      (uniform_item cs).mono (Nat.le_succ _)
    exact (item.speller (c :: rest) false).named rfl rfl _
  | result ordinary => exact fun cs _ => uniform_result ordinary cs
  | token _ ih => exact fun cs short => (ih cs short).token
  | between _ _ _ body opening closing => exact body.between opening closing
  | orElse _ _ ih others => exact ih.orElse others
  | many _ s ih => exact ih.many s
  | manyOrNone _ s _ ih other => exact ih.manyOrNone s other
  | sepBy _ _ _ element separator other => exact element.sepBy separator other
  | chain _ _ rightmost _ operand operator other => exact operand.chain operator rightmost other

end Effects

/-- What is put together from the ready-made parsers comes to the same end on a string in every
container, a text, a list or a tuple of its characters: the same error, or derivations with the same
values in the same order, which leave the same characters in the container that they came in. So it
is before the first use of the grammar of expressions and after it, whichever copy of its parser was
used first, as long as no other values than ordinary ones are made of what stands in parentheses. -/
theorem containers_are_read_alike {s : Store} {inner : Parser}
    (prepared : Expression.Prepared s inner) {p : Parser} (made : p.ReadyMade) (cs : List Char) :
    ∃ r : Except Error (List Reading), ∀ c : Container,
      (Expression.making s inner).Yields p (c.of cs) (c.derivations <$> r) := by
  have uniform := Effects.uniform_of_readyMade prepared made (cs.length + 1) cs
    (Nat.lt_succ_self _)
  obtain ⟨r, settles, -⟩ := uniform.reads
  have read (c : Container) : (Expression.making s inner).Shows (c.of cs) :=
    (c.isOrdinary_of cs).shows _
  exact ⟨r, fun c => ⟨uniform.shown, read c, settles c⟩⟩

/-- A difference in front of a parenthesis, which is left in the container that it came in; and any
text after a copy that maps numbers to their magnitudes was used first. -/
theorem containers_are_read_alike_difference :
    let b := Expression.making (Store.initial.under .standard) .expression
    let cs := ['1', '-', '2', ')']
    let inner := Parser.expression.map (.function (.primitive .magnitude))
    let s := Store.initial.settle Parser.expressionCell (.arithmetic inner)
    b.Yields .expression (.list (Value.ofChars cs)) (.ok [⟨.int (-1), .list [.text [')']]⟩]) ∧
    b.Yields .expression (.tuple (Value.ofChars cs)) (.ok [⟨.int (-1), .tuple [.text [')']]⟩]) ∧
    ∃ r : Except Error (List Reading), ∀ c : Container,
      (Expression.making s inner).Yields .expression (c.of cs) (c.derivations <$> r) := by
  intro b cs inner s
  have ready := Expression.ready_initial .standard
  open Expression in
  have digit (d : Char) (decimal : Alphabet.decimal.has d = true) :
      Reads .term [d] (.chain false (.chain true (.number ⟨[], [d]⟩) .nil) .nil) :=
    Reads.chain (l := .term) (by decide)
      (Reads.chain (l := .power) (by decide) (reads_digit decimal) .nil) .nil
  have subtracted := Expression.ReadsSteps.cons (l := .sum) (o := .subtract) (by decide)
    (List.forall_mem_nil _) (digit '2' (by decide)) .nil
  have difference := Expression.Reads.chain (l := .sum) (by decide) (digit '1' (by decide))
    subtracted
  have text : b.Yields .expression (.text cs)
      (.ok (Container.text.derivations [⟨.int (-1), [')']⟩])) :=
    ready.yields_expression (difference.yields ready.recurs (.parenthesis .sum []))
  obtain ⟨r, alike⟩ := containers_are_read_alike ready.prepared .expression cs
  obtain ⟨readings, rfl, same⟩ := Except.map_eq_ok_iff.mp
    ((alike .text).unique (Expression.start_making _ _) text)
  rw [Container.text.derivations_injective same] at alike
  have quiet : (Expression.making s inner).debug = false := rfl
  have prepared : Expression.Prepared s inner := by
    refine ⟨⟨rfl, .inr rfl⟩, fun debug => absurd (quiet.symm.trans debug) Bool.false_ne_true, ?_⟩
    rintro _ ⟨⟩
    exact Effects.maps_magnitude
  exact ⟨alike .list, alike .tuple, containers_are_read_alike prepared .expression cs⟩

end GrammarKit
