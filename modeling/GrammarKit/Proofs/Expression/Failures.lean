import GrammarKit.Proofs.Expression.Words

/-! # Texts that no expression begins

Values are computed while a text is read, also those of expressions in parentheses that turn out not
to be closed. A text that no expression begins therefore has no derivation, unless an expression
behind one of its parentheses raises an error, such as a division by zero or a numeral with more
digits than are converted: then that error is the outcome.
-/

namespace GrammarKit.Expression

open Effects

variable {s : Store} {inner : Parser} {l : Level}

/-- A word that opens with a parenthesis closes it. -/
theorem Reads.closes : ∀ {l : Level} {w cs : List Char} {t : Tree}, Reads l w t →
    w = '(' :: cs → ')' ∈ cs
  | _, _, _, _, @Reads.number _ digits blanks signed some_ _, opens => by
    rcases signed with rfl | rfl | rfl
    · obtain ⟨c, ds, rfl⟩ := List.exists_cons_of_ne_nil some_.nonempty
      obtain ⟨rfl, -⟩ := List.cons.inj opens
      exact absurd (some_.decimal '(' List.mem_cons_self) (by decide)
    · exact absurd (List.cons.inj opens).1 (by decide)
    · exact absurd (List.cons.inj opens).1 (by decide)
  | _, _, _, _, .parentheses _ _ _, opens => by
    obtain ⟨-, rfl⟩ := List.cons.inj opens
    simp
  | _, _, _, _, @Reads.chain _ _ rest _ _ _ first _, opens => by
    obtain ⟨c, cs, rfl, -⟩ := first.begins
    obtain ⟨rfl, rfl⟩ := List.cons.inj opens
    exact List.mem_append_left rest (first.closes rfl)

/-- On a text that no expression begins, there is no derivation, or else the error of an expression
behind a parenthesis in the text. -/
theorem expression_yields_nil_or_raises_inside (ready : Ready s inner) (cs : List Char)
    (none : ∀ w t, w <+: cs → ¬Reads .sum w t) :
    ∃ r, (making s inner).Yields Parser.expression (.text cs) r ∧
      (r = .ok [] ∨ ∃ e before blanks w rest t, r = .error e ∧
        cs = before ++ '(' :: (blanks ++ w ++ rest) ∧ IsBlank blanks ∧ Reads .sum w t ∧
        t.value s.results.runtime = .error e) := by
  obtain ⟨r, sum, allowed⟩ := settled ready.recurs cs .sum
  refine ⟨r, ready.yields_expression sum, ?_⟩
  cases allowed with
  | fails => exact .inl rfl
  | @reads w rest t v split reads _ =>
    exact absurd reads (none w t ⟨rest, split.symm⟩)
  | @error e raises =>
    cases raises with
    | @here w rest t split reads _ => exact absurd reads (none w t ⟨rest, split.symm⟩)
    | inside raises =>
      obtain ⟨split, blank, reads, value⟩ := raises
      exact .inr ⟨e, _, _, _, _, _, rfl, split, blank, reads, value⟩

/-- A quotient by zero behind a parenthesis that is not closed. -/
def unclosedQuotient : List Char := ['(', '1', '/', '0']

/-- No expression begins with a parenthesis that is not closed. -/
theorem not_reads_unclosedQuotient (w : List Char) (t : Tree) (begins : w <+: unclosedQuotient) :
    ¬Reads .sum w t := by
  intro reads
  obtain ⟨rest, split⟩ := begins
  obtain ⟨c, cs, rfl, -⟩ := reads.begins
  obtain ⟨rfl, inside⟩ := List.cons.inj split
  have closed : ')' ∈ cs ++ rest := List.mem_append_left rest (reads.closes rfl)
  rw [show cs ++ rest = ['1', '/', '0'] from inside] at closed
  exact absurd closed (by decide)

theorem unclosedQuotient_yields_nil_or_raises_inside :
    let s := Store.initial.under .standard
    ∃ r, (making s Parser.expression).Yields Parser.expression (.text unclosedQuotient) r ∧
      (r = .ok [] ∨ ∃ e before blanks w rest t, r = .error e ∧
        unclosedQuotient = before ++ '(' :: (blanks ++ w ++ rest) ∧ IsBlank blanks ∧
        Reads .sum w t ∧ t.value .standard = .error e) :=
  expression_yields_nil_or_raises_inside (ready_initial .standard) unclosedQuotient
    not_reads_unclosedQuotient

/-- A decimal digit as a factor. -/
theorem reads_digit {c : Char} (digit : Alphabet.decimal.has c = true) :
    Reads .factor [c] (.number ⟨[], [c]⟩) := by
  have digits : IsDigits [c] := ⟨List.cons_ne_nil c [], List.forall_mem_singleton.mpr digit⟩
  have blanks : IsBlank [] := List.forall_mem_nil _
  exact Reads.number (.inl rfl) digits blanks

/-- The quotient is computed although the parenthesis is never closed, and its error is the
outcome. -/
theorem unclosedQuotient_yields_error :
    (∀ w t, w <+: unclosedQuotient → ¬Reads .sum w t) ∧
      (making (Store.initial.under .standard) Parser.expression).Yields Parser.expression
        (.text unclosedQuotient) (.error .divisionByZero) := by
  refine ⟨not_reads_unclosedQuotient, ?_⟩
  have ready := ready_initial .standard
  have digit (c : Char) (decimal : Alphabet.decimal.has c = true) :
      Reads .power [c] (.chain true (.number ⟨[], [c]⟩) .nil) :=
    Reads.chain (l := .power) (by decide) (reads_digit decimal) .nil
  have blanks : IsBlank [] := List.forall_mem_nil _
  have divided := ReadsSteps.cons (l := .term) (o := .divide) (by decide) blanks
    (digit '0' (by decide)) .nil
  have quotient := Reads.chain (l := .sum) (by decide)
    (Reads.chain (l := .term) (by decide) (digit '1' (by decide)) divided) .nil
  have inside := quotient.yields ready.recurs (.nil .sum)
  have factor : (making (Store.initial.under .standard) Parser.expression).Yields
      (Level.factor.parser Parser.expression) (.text unclosedQuotient) (.error .divisionByZero) :=
    yields_factor_body_error (ready.recurs _ _ inside)
  have power := yields_chain_error (l := .power) (by decide) factor
  have term := yields_chain_error (l := .term) (by decide) power
  exact ready.yields_expression (yields_chain_error (l := .sum) (by decide) term)

end GrammarKit.Expression
