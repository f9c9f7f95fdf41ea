import GrammarKit.Proofs.Expression.Outcomes
import GrammarKit.Proofs.Expression.Ready

/-! # Expressions are read as far as the grammar goes

A word of the grammar is read exactly, and given the value of its tree, if nothing follows that
could belong to it. Inside a longer text this holds of every operand, because an operator of the
chain follows it; hence no word that a text begins with is longer than what is read, although
choices and repetitions are never reconsidered.
-/

namespace GrammarKit.Expression

open Effects

variable {b : Effects} {inner : Parser} {l : Level} {cs : List Char} {s : Store}

/-- What a word yields: the value of its tree, or the error of it. -/
def wordOutcome (runtime : Runtime) (t : Tree) (rest : List Char) :
    Except Error (List Derivation) := do
  return [⟨← t.value runtime, .text rest⟩]

/-- A numeral takes its digits and the blanks after them. -/
theorem yields_number (inner : Parser) {sign digits : List Char} (signed : IsSign sign)
    (some_ : IsDigits digits) (rest : List Char) :
    b.Yields (Level.factor.parser inner) (.text (sign ++ digits ++ rest)) (wordOutcome b.runtime
      (.number ⟨sign, digits ++ rest.takeWhile Alphabet.decimal.has⟩)
      (skipBlanks (rest.dropWhile Alphabet.decimal.has))) :=
  yields_factor_number (numeralAt?_append signed some_ rest)

/-- A word in parentheses is read exactly, with the blanks around it. -/
theorem yields_parentheses {before body rest : List Char} {t : Tree}
    (blank : IsBlank before) (reads : Reads .sum body t)
    (inside : b.Yields inner (.text (body ++ ')' :: rest))
      (wordOutcome b.runtime t (')' :: rest))) :
    b.Yields (Level.factor.parser inner) (.text ('(' :: (before ++ (body ++ ')' :: rest))))
      (wordOutcome b.runtime t (skipBlanks rest)) := by
  rw [← reads.skipBlanks_append blank] at inside
  unfold wordOutcome at inside ⊢
  cases value : t.value b.runtime with
  | error e =>
    rw [value] at inside
    exact yields_factor_body_error inside
  | ok v =>
    rw [value] at inside
    exact yields_factor_closed (t.isNumber_of_value value) inside

mutual

/-- A word that nothing can be added to is read exactly. -/
theorem Reads.yields (recurs : Recurs b inner) : ∀ {l : Level} {w : List Char} {t : Tree},
    Reads l w t → ∀ {rest : List Char}, Clear l rest →
      b.Yields (l.parser inner) (.text (w ++ rest)) (wordOutcome b.runtime t rest)
  | _, _, _, @Reads.number sign digits blanks signed some_ blank, rest, clear => by
    have read := yields_number (b := b) inner signed some_ (blanks ++ rest)
    obtain ⟨taken, dropped⟩ := clear.blanks_append blank
    rw [taken, dropped, List.append_nil, skipBlanks_append blank, clear.skipBlanks,
      ← List.append_assoc] at read
    exact read
  | _, _, _, @Reads.parentheses before body after t blank reads blank', rest, clear => by
    have sum := reads.yields recurs (.parenthesis .sum (after ++ rest))
    have read := yields_parentheses blank reads (recurs _ _ sum)
    rw [skipBlanks_append blank', clear.skipBlanks] at read
    simpa using read
  | _, _, _, @Reads.chain l first rest a steps chain reads readsSteps, rest', clear => by
    have operand := reads.yields recurs (readsSteps.clear clear)
    have run := readsSteps.runsTo recurs clear
    rw [List.append_assoc]
    unfold wordOutcome at operand ⊢
    rw [Tree.value]
    cases value : a.value b.runtime with
    | error e =>
      rw [value] at operand
      exact yields_chain_error chain operand
    | ok v =>
      rw [value] at operand
      have whole := yields_chain chain (a.isNumber_of_value value) operand run
      cases values : steps.values b.runtime with
      | error e =>
        rw [values] at whole
        exact whole
      | ok pairs =>
        rw [values] at whole
        exact whole

/-- The steps of a chain that no other step can follow are gathered exactly. -/
theorem ReadsSteps.runsTo (recurs : Recurs b inner) : ∀ {l : Level} {w : List Char} {steps : Steps},
    ReadsSteps l w steps → ∀ {rest : List Char}, Clear l rest →
      RunsTo b inner l (w ++ rest) ((steps.values b.runtime).map fun pairs => (pairs, rest))
  | _, _, _, .nil, rest, clear => .stop fun _ _ same => clear.sign_ne same
  | _, _, _, @ReadsSteps.cons l o blanks operand rest t steps member blank reads readsSteps, rest',
      clear => by
    have read := reads.yields recurs (readsSteps.clear clear)
    have others := readsSteps.runsTo recurs clear
    rw [← reads.skipBlanks_append blank] at read
    have same : o.sign :: (blanks ++ operand ++ rest) ++ rest' =
        o.sign :: (blanks ++ (operand ++ (rest ++ rest'))) := by simp
    rw [same, Steps.values]
    unfold wordOutcome at read
    cases value : t.value b.runtime with
    | error e =>
      rw [value] at read
      exact .error member read
    | ok v =>
      rw [value] at read
      have shorter : (rest ++ rest').length ≤ (blanks ++ (operand ++ (rest ++ rest'))).length := by
        simp only [List.length_append]
        omega
      have whole := RunsTo.next member (t.isNumber_of_value value) read shorter others
      cases values : steps.values b.runtime with
      | error e =>
        rw [values] at whole
        exact whole
      | ok pairs =>
        rw [values] at whole
        exact whole

end

/-! ## Longest words -/

private theorem length_after_digits_le {blanks : List Char} (blank : IsBlank blanks)
    (rest : List Char) :
    (skipBlanks ((blanks ++ rest).dropWhile Alphabet.decimal.has)).length ≤ rest.length := by
  cases blanks with
  | nil =>
    have dropped := (List.dropWhile_sublist (l := rest) Alphabet.decimal.has).length_le
    exact Nat.le_trans (length_skipBlanks_le _) dropped
  | cons c cs =>
    have digit := not_decimal_of_blank (blank c List.mem_cons_self)
    have kept : ((c :: cs) ++ rest).dropWhile Alphabet.decimal.has = (c :: cs) ++ rest :=
      List.dropWhile_cons_of_neg (by simp [digit])
    rw [kept, skipBlanks_append blank]
    exact length_skipBlanks_le rest

mutual

/-- Where a word is followed by anything, the only derivation leaves no more than that. -/
theorem Reads.length_le (start : b.start s) (recurs : Recurs b inner) :
    ∀ {l : Level} {w : List Char} {t : Tree}, Reads l w t →
    ∀ {rest : List Char} {ds : List Derivation},
      b.Yields (l.parser inner) (.text (w ++ rest)) (.ok ds) →
        ∃ v left, ds = [⟨v, .text left⟩] ∧ left.length ≤ rest.length
  | _, _, _, @Reads.number sign digits blanks signed some_ blank, rest, ds, yields => by
    have read := yields_number (b := b) inner signed some_ (blanks ++ rest)
    rw [← List.append_assoc] at read
    obtain ⟨v, -, outcome⟩ := Except.bind_eq_ok_iff.mp (yields.unique start read).symm
    cases outcome
    exact ⟨v, _, rfl, length_after_digits_le blank rest⟩
  | _, _, _, @Reads.parentheses before body after t blank reads blank', rest, ds, yields => by
    have sum := reads.yields recurs (.parenthesis .sum (after ++ rest))
    have read := yields_parentheses blank reads (recurs _ _ sum)
    have same : '(' :: (before ++ body ++ ')' :: after) ++ rest =
        '(' :: (before ++ (body ++ ')' :: (after ++ rest))) := by simp
    rw [← same, skipBlanks_append blank'] at read
    have outcome := yields.unique start read
    unfold wordOutcome at outcome
    cases value : t.value b.runtime with
    | error e =>
      rw [value] at outcome
      cases outcome
    | ok v =>
      rw [value] at outcome
      cases outcome
      exact ⟨_, _, rfl, length_skipBlanks_le rest⟩
  | _, _, _, @Reads.chain l first rest a steps chain reads readsSteps, rest', ds, yields => by
    rw [List.append_assoc] at yields
    obtain ⟨r, operand, allowed⟩ := settled recurs (first ++ (rest ++ rest')) l.below
    cases allowed with
    | error e => cases yields.unique start (yields_chain_error chain operand)
    | fails =>
      obtain ⟨_, _, same, _⟩ := reads.length_le start recurs operand
      cases same
    | @reads w left t v _ _ value =>
      have number := t.isNumber_of_value value
      obtain ⟨o, run, _⟩ := exists_runsTo left.length
        (fun ds _ => settled recurs ds l.below) left (Nat.le_refl _)
      have outcome := yields.unique start (yields_chain chain number operand run)
      cases o with
      | error e => cases outcome
      | ok found =>
        obtain ⟨pairs, left'⟩ := found
        obtain ⟨_, gathered, outcome⟩ := Except.bind_eq_ok_iff.mp outcome.symm
        cases gathered
        obtain ⟨v', folded, outcome⟩ := Except.bind_eq_ok_iff.mp outcome
        cases outcome
        refine ⟨_, _, rfl, ?_⟩
        by_cases none : rest = []
        · obtain ⟨_, _, same, shorter⟩ := reads.length_le start recurs operand
          cases same
          rw [none, List.nil_append] at shorter
          exact Nat.le_trans run.length_le shorter
        · -- An operator follows the first operand, which is therefore read exactly.
          have clear := readsSteps.clear_of_ne_nil none rest'
          have exact_ := operand.unique start (reads.yields recurs clear)
          obtain ⟨_, _, same⟩ := Except.bind_eq_ok_iff.mp exact_.symm
          cases same
          exact readsSteps.length_le start recurs run

theorem ReadsSteps.length_le (start : b.start s) (recurs : Recurs b inner) :
    ∀ {l : Level} {w : List Char} {steps : Steps}, ReadsSteps l w steps →
    ∀ {rest left : List Char} {pairs : List (Operator × Value)},
      RunsTo b inner l (w ++ rest) (.ok (pairs, left)) → left.length ≤ rest.length
  | _, _, _, .nil, rest, left, pairs, runs => runs.length_le
  | _, _, _, @ReadsSteps.cons l o blanks operand rest t steps member blank reads readsSteps, rest',
      left, pairs, runs => by
    have same : o.sign :: (blanks ++ operand ++ rest) ++ rest' =
        o.sign :: (blanks ++ (operand ++ (rest ++ rest'))) := by simp
    rw [same] at runs
    obtain ⟨r, read, allowed⟩ := settled recurs (operand ++ (rest ++ rest')) l.below
    have read' := read
    rw [← reads.skipBlanks_append blank] at read
    cases allowed with
    | error e =>
      obtain ⟨_, impossible⟩ := (RunsTo.error member read).exists_of_unique start runs
      cases impossible
    | fails =>
      obtain ⟨_, _, impossible, _⟩ := reads.length_le start recurs read'
      cases impossible
    | @reads w mid t v _ _ value =>
      obtain ⟨_, _, single, shorter⟩ := reads.length_le start recurs read'
      cases single
      have fewer : mid.length ≤ (blanks ++ (operand ++ (rest ++ rest'))).length := by
        simp only [List.length_append] at shorter ⊢
        omega
      obtain ⟨out, run, _⟩ := exists_runsTo mid.length
        (fun ds _ => settled recurs ds l.below) mid (Nat.le_refl _)
      have whole := RunsTo.next member (t.isNumber_of_value value) read fewer run
      obtain ⟨_, found⟩ := whole.exists_of_unique start runs
      obtain ⟨⟨pairs', left'⟩, rfl, found⟩ := Except.map_eq_ok_iff.mp found
      cases found
      by_cases none : rest = []
      · rw [none, List.nil_append] at shorter
        exact Nat.le_trans run.length_le shorter
      · have clear := readsSteps.clear_of_ne_nil none rest'
        have exact_ := read'.unique start (reads.yields recurs clear)
        obtain ⟨_, _, outcome⟩ := Except.bind_eq_ok_iff.mp exact_.symm
        cases outcome
        exact readsSteps.length_le start recurs run

end

/-- All trees of a word have the same value, if the word is read at all. -/
theorem Reads.value_unique (start : b.start s) (recurs : Recurs b inner) {w : List Char}
    {t t' : Tree} (reads : Reads l w t) (reads' : Reads l w t') :
    t.value b.runtime = t'.value b.runtime := by
  have yields := reads.yields recurs (.nil l)
  have same := yields.unique start (reads'.yields recurs (.nil l))
  unfold wordOutcome at same
  generalize t.value b.runtime = x at same ⊢
  generalize t'.value b.runtime = y at same ⊢
  cases x <;> cases y <;> cases same <;> rfl

/-- On every text the parser of expressions comes to an end. Unless that is an error, it is the
longest word of the grammar that the text begins with, as its value and what is left of the text,
or no derivation if the text begins with no word. -/
theorem expression_yields_longest_word (ready : Ready s inner) (cs : List Char) :
    ∃ r, (making s inner).Yields Parser.expression (.text cs) r ∧ ∀ ds, r = .ok ds →
      (∃ w rest v, cs = w ++ rest ∧ ds = [⟨v, .text rest⟩] ∧
        (∃ t, Reads .sum w t) ∧ (∀ t, Reads .sum w t → t.value s.results.runtime = .ok v) ∧
        ∀ w' t, w' <+: cs → Reads .sum w' t → w'.length ≤ w.length) ∨
      (ds = [] ∧ ∀ w t, w <+: cs → ¬Reads .sum w t) := by
  have start := start_making s inner
  obtain ⟨r, sum, allowed⟩ := settled ready.recurs cs .sum
  refine ⟨r, ready.yields_expression sum, ?_⟩
  rintro ds rfl
  cases allowed with
  | fails =>
    refine .inr ⟨rfl, fun w t begins reads => ?_⟩
    obtain ⟨rest, rfl⟩ := begins
    obtain ⟨_, _, impossible, _⟩ := reads.length_le start ready.recurs sum
    cases impossible
  | @reads w rest t v split reads value =>
    refine .inl ⟨w, rest, v, split, rfl, ⟨t, reads⟩, fun t' reads' => ?_, ?_⟩
    · exact (reads.value_unique start ready.recurs reads').symm.trans value
    · rintro w' t' ⟨rest', same⟩ reads'
      rw [← same] at sum
      obtain ⟨_, _, single, shorter⟩ := reads'.length_le start ready.recurs sum
      cases single
      have lengths := congrArg List.length (same.trans split)
      rw [List.length_append, List.length_append] at lengths
      omega

/-- An operator without an operand is left, also by the first expression that is read. -/
theorem expression_yields_dangling_operator :
    let s := Store.initial.under .standard
    ∃ r, (making s Parser.expression).Yields Parser.expression (.text ['1', '+']) r ∧
      ∀ ds, r = .ok ds → (∃ w rest v, ['1', '+'] = w ++ rest ∧ ds = [⟨v, .text rest⟩] ∧
        (∃ t, Reads .sum w t) ∧ (∀ t, Reads .sum w t → t.value .standard = .ok v) ∧
        ∀ w' t, w' <+: ['1', '+'] → Reads .sum w' t → w'.length ≤ w.length) ∨
      (ds = [] ∧ ∀ w t, w <+: ['1', '+'] → ¬Reads .sum w t) :=
  expression_yields_longest_word (ready_initial .standard) ['1', '+']

end GrammarKit.Expression
