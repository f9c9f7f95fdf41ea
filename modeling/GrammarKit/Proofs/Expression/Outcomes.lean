import GrammarKit.Proofs.Expression.Parsers

/-! # Every text has an outcome

On every text the parser of a level comes to an end: with the error of a word that is in the text,
which may be that of a numeral with more digits than are converted, without a derivation, or with
the value of a word that the text begins with. The induction is on the
length of the text, since the grammar refers to itself only behind a parenthesis, and runs go on
only behind an operator.
-/

namespace GrammarKit.Expression

open Effects

variable {b : Effects} {inner : Parser} {runtime : Runtime} {l : Level} {cs : List Char}

/-- Whether an error is that of an expression behind a parenthesis in a text. -/
inductive RaisesInside (runtime : Runtime) (cs : List Char) (e : Error) : Prop where
  | intro {before blanks w rest : List Char} {t : Tree} :
    cs = before ++ '(' :: (blanks ++ w ++ rest) → IsBlank blanks → Reads .sum w t →
      t.value runtime = .error e → RaisesInside runtime cs e

theorem RaisesInside.append {e : Error} (raises : RaisesInside runtime cs e)
    (before : List Char) : RaisesInside runtime (before ++ cs) e := by
  obtain ⟨rfl, blank, reads, value⟩ := raises
  exact .intro (List.append_assoc ..).symm blank reads value

/-- Whether an error is that of a word in a text: the text begins with the word, or the word is an
expression behind a parenthesis. -/
inductive Raises (runtime : Runtime) (l : Level) (cs : List Char) (e : Error) : Prop where
  | here {w rest : List Char} {t : Tree} :
    cs = w ++ rest → Reads l w t → t.value runtime = .error e → Raises runtime l cs e
  | inside : RaisesInside runtime cs e → Raises runtime l cs e

/-- Whether an error is that of operators and operands that a text begins with, or that of an
expression behind a parenthesis. -/
inductive RaisesSteps (runtime : Runtime) (l : Level) (cs : List Char) (e : Error) : Prop where
  | here {w rest : List Char} {steps : Steps} :
    cs = w ++ rest → ReadsSteps l w steps → steps.values runtime = .error e →
      RaisesSteps runtime l cs e
  | inside : RaisesInside runtime cs e → RaisesSteps runtime l cs e

/-- What the grammar allows a level to yield on a text. -/
inductive Allowed (runtime : Runtime) (l : Level) (cs : List Char) :
    Except Error (List Derivation) → Prop where
  | error {e : Error} : Raises runtime l cs e → Allowed runtime l cs (.error e)
  | fails : Allowed runtime l cs (.ok [])
  | reads {w rest : List Char} {t : Tree} {v : Value} :
    cs = w ++ rest → Reads l w t → t.value runtime = .ok v →
      Allowed runtime l cs (.ok [⟨v, .text rest⟩])

/-- Whether a level comes to an allowed end on a text. -/
def Settled (b : Effects) (inner : Parser) (l : Level) (cs : List Char) : Prop :=
  ∃ r, b.Yields (l.parser inner) (.text cs) r ∧ Allowed b.runtime l cs r

/-- An error behind a parenthesis and blanks is one of the text. -/
theorem Raises.parenthesis {ds : List Char} {e : Error}
    (raises : Raises runtime .sum (skipBlanks ds) e) : RaisesInside runtime ('(' :: ds) e := by
  have split := takeWhile_append_skipBlanks ds
  cases raises with
  | @here w rest t same reads value =>
    have word : '(' :: ds = [] ++ '(' :: (ds.takeWhile Alphabet.whitespace.has ++ w ++ rest) := by
      rw [List.nil_append, List.append_assoc, ← same, split]
    exact .intro word (takeWhile_isBlank ds) reads value
  | inside raises =>
    have whole := raises.append ('(' :: ds.takeWhile Alphabet.whitespace.has)
    rwa [List.cons_append, split] at whole

/-- The error of an operand is that of the steps it begins. -/
theorem Raises.operand {o : Operator} {ds : List Char} {e : Error} (member : o ∈ l.operators)
    (raises : Raises runtime l.below (skipBlanks ds) e) :
    RaisesSteps runtime l (o.sign :: ds) e := by
  have split := takeWhile_append_skipBlanks ds
  cases raises with
  | @here w rest t same reads value =>
    have word : o.sign :: ds =
        o.sign :: (ds.takeWhile Alphabet.whitespace.has ++ w ++ []) ++ rest := by
      rw [List.append_nil, List.cons_append, List.append_assoc, ← same, split]
    refine .here word (.cons member (takeWhile_isBlank ds) reads .nil) ?_
    rw [Steps.values, value]
    rfl
  | inside raises =>
    have whole := raises.append (o.sign :: ds.takeWhile Alphabet.whitespace.has)
    rw [List.cons_append, split] at whole
    exact .inside whole

/-- The error of later steps is that of all of them. -/
theorem RaisesSteps.next {o : Operator} {ds w rest : List Char} {t : Tree} {v : Value} {e : Error}
    (member : o ∈ l.operators) (split : skipBlanks ds = w ++ rest) (reads : Reads l.below w t)
    (value : t.value runtime = .ok v) (raises : RaisesSteps runtime l rest e) :
    RaisesSteps runtime l (o.sign :: ds) e := by
  have whole := takeWhile_append_skipBlanks ds
  cases raises with
  | @here w' rest' steps same readsSteps values =>
    have word : o.sign :: ds =
        o.sign :: (ds.takeWhile Alphabet.whitespace.has ++ w ++ w') ++ rest' := by
      rw [List.cons_append, List.append_assoc, List.append_assoc, ← same, ← split, whole]
    refine .here word (.cons member (takeWhile_isBlank ds) reads readsSteps) ?_
    rw [Steps.values, value, values]
    rfl
  | inside raises =>
    have later := raises.append (o.sign :: (ds.takeWhile Alphabet.whitespace.has ++ w))
    rw [List.cons_append, List.append_assoc, ← split, whole] at later
    exact .inside later

/-- The error of the first operand is that of the chain. -/
theorem Raises.first {e : Error} (chain : l ≠ .factor) (raises : Raises runtime l.below cs e) :
    Raises runtime l cs e := by
  cases raises with
  | @here w rest t same reads value =>
    have word : cs = w ++ [] ++ rest := by rw [List.append_nil, same]
    refine .here word (.chain chain reads .nil) ?_
    rw [Tree.value, value]
    rfl
  | inside raises => exact .inside raises

/-- The error of the steps is that of the chain. -/
theorem RaisesSteps.chain {w rest : List Char} {t : Tree} {v : Value} {e : Error}
    (chain : l ≠ .factor) (split : cs = w ++ rest) (reads : Reads l.below w t)
    (value : t.value runtime = .ok v) (raises : RaisesSteps runtime l rest e) :
    Raises runtime l cs e := by
  cases raises with
  | @here w' rest' steps same readsSteps values =>
    have word : cs = w ++ w' ++ rest' := by rw [split, same, List.append_assoc]
    refine .here word (.chain chain reads readsSteps) ?_
    rw [Tree.value, value, values]
    rfl
  | inside raises => exact .inside (split ▸ raises.append w)

/-- A factor is settled if the expressions in shorter texts are. -/
theorem settled_factor (recurs : Recurs b inner)
    (shorter : ∀ ds : List Char, ds.length < cs.length → Settled b inner .sum ds) :
    Settled b inner .factor cs := by
  cases numeral : numeralAt? cs with
  | some found =>
    obtain ⟨written, rest⟩ := found
    obtain ⟨signed, some_, split⟩ := numeralAt?_eq_some numeral
    have word : cs = written.sign ++ written.digits ++ rest.takeWhile Alphabet.whitespace.has ++
        skipBlanks rest := by
      rw [List.append_assoc _ _ (skipBlanks rest), takeWhile_append_skipBlanks, split]
    have reads : Reads .factor _ (.number written) :=
      .number signed some_ (takeWhile_isBlank rest)
    refine ⟨_, yields_factor_number numeral, ?_⟩
    cases value : written.read b.runtime with
    | ok v => exact .reads word reads value
    | error e => exact .error (.here word reads value)
  | none =>
    by_cases opens : ∃ ds, cs = '(' :: ds
    · obtain ⟨ds, rfl⟩ := opens
      have fewer := Nat.lt_succ_of_le (length_skipBlanks_le ds)
      obtain ⟨r, sum, allowed⟩ := shorter (skipBlanks ds) fewer
      have inside := recurs _ _ sum
      cases allowed with
      | error raises =>
        exact ⟨_, yields_factor_body_error inside, .error (.inside raises.parenthesis)⟩
      | fails => exact ⟨_, yields_factor_body_nil inside, .fails⟩
      | @reads w rest t v split reads value =>
        by_cases closes : ∃ after, rest = ')' :: after
        · obtain ⟨after, rfl⟩ := closes
          have number := t.isNumber_of_value value
          refine ⟨_, yields_factor_closed number inside, ?_⟩
          refine .reads ?_
            (.parentheses (takeWhile_isBlank ds) reads (takeWhile_isBlank after)) value
          rw [List.cons_append, List.append_assoc, List.cons_append, takeWhile_append_skipBlanks,
            List.append_assoc, ← split, takeWhile_append_skipBlanks]
        · refine ⟨_, yields_factor_unclosed inside fun after same => ?_, .fails⟩
          exact closes ⟨after, same⟩
    · refine ⟨_, yields_factor_nil numeral fun ds same => ?_, .fails⟩
      exact opens ⟨ds, same⟩

/-- A run is settled if the operands in shorter texts are. -/
theorem exists_runsTo (n : Nat)
    (below : ∀ ds : List Char, ds.length < n → Settled b inner l.below ds) :
    ∀ cs : List Char, cs.length ≤ n → ∃ o, RunsTo b inner l cs o ∧
      (∀ pairs rest, o = .ok (pairs, rest) →
        ∃ w steps, cs = w ++ rest ∧ ReadsSteps l w steps ∧ steps.values b.runtime = .ok pairs) ∧
      ∀ e, o = .error e → RaisesSteps b.runtime l cs e := by
  have none (cs : List Char) (pairs : List (Operator × Value)) (rest : List Char)
      (same : (.ok ([], cs) : Except Error (List (Operator × Value) × List Char)) =
        .ok (pairs, rest)) :
      ∃ w steps, cs = w ++ rest ∧ ReadsSteps l w steps ∧ steps.values b.runtime = .ok pairs := by
    cases same
    exact ⟨[], .nil, rfl, .nil, rfl⟩
  induction n with
  | zero =>
    intro cs short
    obtain rfl := List.eq_nil_of_length_eq_zero (Nat.le_zero.mp short)
    exact ⟨_, .stop fun _ _ same => (nomatch same), none [], fun _ same => nomatch same⟩
  | succ n ih =>
    intro cs short
    by_cases begins : ∃ o ∈ l.operators, ∃ ds, cs = o.sign :: ds
    · obtain ⟨o, member, ds, rfl⟩ := begins
      have fewer : (skipBlanks ds).length < n + 1 :=
        Nat.lt_of_le_of_lt (length_skipBlanks_le ds) short
      obtain ⟨r, operand, allowed⟩ := below (skipBlanks ds) fewer
      cases allowed with
      | error raises =>
        refine ⟨_, .error member operand, fun _ _ same => (nomatch same), ?_⟩
        rintro _ ⟨⟩
        exact raises.operand member
      | fails =>
        exact ⟨_, .stop_operand member operand, none _, fun _ same => nomatch same⟩
      | @reads w rest t v split reads value =>
        have left : rest.length ≤ ds.length := by
          have whole := congrArg List.length split
          have skipped := length_skipBlanks_le ds
          rw [List.length_append] at whole
          omega
        have short' : rest.length ≤ n := Nat.le_trans left (Nat.le_of_lt_succ short)
        obtain ⟨out, run, words, raises⟩ := ih (fun ds fewer => below ds (by omega)) rest short'
        have number := t.isNumber_of_value value
        refine ⟨_, .next member number operand left run, fun pairs rest' same => ?_,
          fun e same => ?_⟩
        · obtain ⟨⟨pairs', left'⟩, rfl, same⟩ := Except.map_eq_ok_iff.mp same
          cases same
          obtain ⟨w', steps, rfl, readsSteps, values⟩ := words _ _ rfl
          refine ⟨_, _, ?_, .cons member (takeWhile_isBlank ds) reads readsSteps, ?_⟩
          · rw [List.cons_append, List.append_assoc, List.append_assoc, ← split,
              takeWhile_append_skipBlanks]
          · rw [Steps.values, value, values]
            rfl
        · cases out with
          | error e' =>
            cases same
            exact (raises e rfl).next member split reads value
          | ok _ => cases same
    · refine ⟨_, .stop fun c ds same o member sign => ?_, none cs, fun _ same => nomatch same⟩
      exact begins ⟨o, member, ds, sign ▸ same⟩

/-- A chain is settled if its operands are, here and in shorter texts. -/
theorem settled_chain (chain : l ≠ .factor)
    (here : Settled b inner l.below cs)
    (shorter : ∀ ds : List Char, ds.length < cs.length → Settled b inner l.below ds) :
    Settled b inner l cs := by
  obtain ⟨r, first, allowed⟩ := here
  cases allowed with
  | error raises => exact ⟨_, yields_chain_error chain first, .error (raises.first chain)⟩
  | fails => exact ⟨_, yields_chain_nil chain first, .fails⟩
  | @reads w rest t a split reads value =>
    have left : rest.length ≤ cs.length := by
      rw [split, List.length_append]
      omega
    obtain ⟨o, run, words, raises⟩ := exists_runsTo cs.length shorter rest left
    refine ⟨_, yields_chain chain (t.isNumber_of_value value) first run, ?_⟩
    cases o with
    | error e => exact .error ((raises e rfl).chain chain split reads value)
    | ok found =>
      obtain ⟨pairs, rest'⟩ := found
      obtain ⟨w', steps, rfl, readsSteps, values⟩ := words pairs rest' rfl
      change Allowed b.runtime l cs (do
        return [⟨← foldWith Operator.apply l.rightmost a pairs, .text rest'⟩])
      have word : cs = w ++ w' ++ rest' := by rw [split, List.append_assoc]
      have whole : (Tree.chain l.rightmost t steps).value b.runtime =
          foldWith Operator.apply l.rightmost a pairs := by
        rw [Tree.value, value, values]
        rfl
      cases folded : foldWith Operator.apply l.rightmost a pairs with
      | error e =>
        exact .error (.here word (.chain chain reads readsSteps) (whole.trans folded))
      | ok v => exact .reads word (.chain chain reads readsSteps) (whole.trans folded)

/-- Every level comes to an end on every text, with an outcome that the grammar allows. -/
theorem settled (recurs : Recurs b inner) (cs : List Char) (l : Level) : Settled b inner l cs := by
  induction size : cs.length using Nat.strongRecOn generalizing cs l with
  | ind n ih =>
    have shorter : ∀ (l : Level) (ds : List Char), ds.length < cs.length → Settled b inner l ds :=
      fun l ds fewer => ih ds.length (size ▸ fewer) ds l rfl
    have factor : Settled b inner .factor cs := settled_factor recurs (shorter .sum)
    have power : Settled b inner .power cs :=
      settled_chain nofun factor (shorter .factor)
    have term : Settled b inner .term cs := settled_chain nofun power (shorter .power)
    have sum : Settled b inner .sum cs := settled_chain nofun term (shorter .term)
    cases l with
    | factor => exact factor
    | power => exact power
    | term => exact term
    | sum => exact sum

end GrammarKit.Expression
