import GrammarKit.Proofs.Chains
import GrammarKit.Proofs.Expression.Grammar

/-! # The parsers of the levels

Each level of the grammar has its parser, built from that of the level below, and in the end from
the parser of what stands in parentheses. What such a parser yields follows from what its parts
yield: for a factor from the number or the expression in parentheses that it begins with, for a
chain from its first operand and the run of its operators and operands.
-/

namespace GrammarKit.Expression

/-- The matcher of the operators of a level. -/
def Level.matcher (l : Level) : Parser :=
  Parser.operations (Parser.operatorTable (l.operators.map fun o => (o.sign, o.primitive)))

/-- The parser of a level, given the one of what stands in parentheses. -/
def Level.parser (inner : Parser) : Level → Parser
  | factor => Parser.factor inner
  | power => (Parser.factor inner).chain power.matcher true .missing
  | term => ((Parser.factor inner).chain power.matcher true .missing).chain
      term.matcher false .missing
  | sum => (((Parser.factor inner).chain power.matcher true .missing).chain
      term.matcher false .missing).chain sum.matcher false .missing

theorem Level.parser_eq_chain {l : Level} (chain : l ≠ factor) (inner : Parser) :
    l.parser inner = (l.below.parser inner).chain l.matcher l.rightmost .missing := by
  cases l with
  | factor => exact absurd rfl chain
  | _ => rfl

/-- The operator of a level and the operand after it. -/
def Level.step (inner : Parser) (l : Level) : Parser :=
  l.matcher.step (.operand (l.below.parser inner))

/-- Whether the parser of what stands in parentheses yields what sums do. -/
def Recurs (b : Effects) (inner : Parser) : Prop :=
  ∀ x r, b.Yields (Level.sum.parser inner) x r → b.Yields inner x r

open Effects

variable {b : Effects} {inner : Parser} {l : Level}

/-! ## Operators -/

private theorem lookup_operators {o : Operator} (member : o ∈ l.operators) :
    (l.operators.map fun o => (o.sign, o.primitive)).lookup o.sign = some o.primitive := by
  obtain rfl := Level.mem_operators_iff.mp member
  cases o <;> rfl

private theorem lookup_operators_none {c : Char} (other : ∀ o ∈ l.operators, o.sign ≠ c) :
    (l.operators.map fun o => (o.sign, o.primitive)).lookup c = none := by
  refine List.lookup_eq_none_iff.mpr fun entry member => ?_
  obtain ⟨o, inside, rfl⟩ := List.mem_map.mp member
  simpa using (other o inside).symm

theorem yields_matcher {o : Operator} (member : o ∈ l.operators)
    (cs : List Char) :
    b.Yields l.matcher (.text (o.sign :: cs)) (.ok [⟨o.function, .text (skipBlanks cs)⟩]) := by
  have matched := yields_operations (b := b)
    (l.operators.map fun o => (o.sign, o.primitive)) o.sign cs
  rw [lookup_operators member] at matched
  exact matched

theorem yields_matcher_nil {cs : List Char}
    (other : ∀ c ds, cs = c :: ds → ∀ o ∈ l.operators, o.sign ≠ c) :
    b.Yields l.matcher (.text cs) (.ok []) := by
  cases cs with
  | nil => exact yields_operations_nil _
  | cons c ds =>
    have matched := yields_operations (b := b)
      (l.operators.map fun o => (o.sign, o.primitive)) c ds
    rw [lookup_operators_none (other c ds rfl)] at matched
    exact matched

/-! ## Numbers -/

/-- Whether a value is a number. -/
def IsNumber (v : Value) : Prop := ∃ n : Number, v = .ofNumber n

theorem IsNumber.isPlain {v : Value} (number : IsNumber v) : v.IsPlain := by
  obtain ⟨n, rfl⟩ := number
  cases n <;> trivial

theorem IsNumber.shows {v : Value} (number : IsNumber v) : b.Shows v := by
  obtain ⟨n, rfl⟩ := number
  cases n with
  | int n => exact shows_int n
  | float x => exact .of_parts (Value.shownBy_float x) (List.forall_mem_nil _)

theorem isNumber_of_onNumbers {operation : Number → Number → Except Error Number} {a b c : Value}
    (applied : Value.onNumbers operation a b = .ok c) : IsNumber c := by
  obtain ⟨_, _, applied⟩ := Except.bind_eq_ok_iff.mp applied
  obtain ⟨_, _, applied⟩ := Except.bind_eq_ok_iff.mp applied
  obtain ⟨n, _, applied⟩ := Except.bind_eq_ok_iff.mp applied
  cases applied
  exact ⟨n, rfl⟩

theorem Operator.isNumber_of_apply {o : Operator} {a b c : Value} (first : IsNumber a)
    (second : IsNumber b) (applied : o.apply a b = .ok c) : IsNumber c := by
  obtain ⟨m, rfl⟩ := first
  obtain ⟨n, rfl⟩ := second
  cases o with
  | add => cases m <;> cases n <;> exact isNumber_of_onNumbers applied
  | multiply => cases m <;> cases n <;> exact isNumber_of_onNumbers applied
  | _ => exact isNumber_of_onNumbers applied

theorem keepsTo_isNumber : KeepsTo Operator.apply IsNumber :=
  fun _ _ _ _ => Operator.isNumber_of_apply

/-- The functions of the operators, applied to numbers. -/
theorem operates (b : Effects) : b.Operates IsNumber Operator.function Operator.apply := by
  refine ⟨fun o v w first second => ?_, keepsTo_isNumber⟩
  obtain ⟨m, rfl⟩ := first
  obtain ⟨n, rfl⟩ := second
  have applied : b.Settles (fun _ => (liftM (o.apply (.ofNumber m) (.ofNumber n)) : Eval Value))
      (o.apply (.ofNumber m) (.ofNumber n)) := Settles.lift _
  refine .of_apply (applied.congr fun k s _ => congrFun ?_ s)
  cases o with
  | add => cases m <;> cases n <;> rfl
  | _ => exact Eval.lift_lift _

section

variable {runtime : Runtime}

mutual

/-- The value of a tree is a number. -/
theorem Tree.isNumber_of_value : ∀ (t : Tree) {v : Value}, t.value runtime = .ok v → IsNumber v
  | .number numeral, _, value => ⟨.int numeral.value, (Numeral.read_eq_ok_iff.mp value).2⟩
  | .chain _ first steps, _, value => by
    obtain ⟨a, head, value⟩ := Except.bind_eq_ok_iff.mp value
    obtain ⟨pairs, tail, value⟩ := Except.bind_eq_ok_iff.mp value
    exact keepsTo_isNumber.fold (first.isNumber_of_value head) (steps.isNumber_of_values tail)
      value

theorem Steps.isNumber_of_values : ∀ (steps : Steps) {pairs : List (Operator × Value)},
    steps.values runtime = .ok pairs → ∀ p ∈ pairs, IsNumber p.2
  | .nil, _, values => by
    cases values
    exact List.forall_mem_nil _
  | .cons o operand rest, _, values => by
    obtain ⟨w, head, values⟩ := Except.bind_eq_ok_iff.mp values
    obtain ⟨pairs, tail, values⟩ := Except.bind_eq_ok_iff.mp values
    cases values
    exact List.forall_mem_cons.mpr ⟨operand.isNumber_of_value head, rest.isNumber_of_values tail⟩

end

end

/-! ## Factors -/

variable {cs : List Char} {e : Error} {v : Value}

/-- What stands in parentheses can be shown. -/
private theorem shows_between :
    b.Shows (inner.between (Parser.sign '(') (Parser.sign ')')).toValue :=
  shows_bind (yields_sign_nil '(').shown _ _

/-- A numeral is read, unless it has more digits than are converted. -/
theorem yields_factor_number {numeral : Numeral} {rest : List Char}
    (found : numeralAt? cs = some (numeral, rest)) :
    b.Yields (Level.factor.parser inner) (.text cs)
      (do return [⟨← numeral.read b.runtime, .text (skipBlanks rest)⟩]) := by
  have read := yields_integer (b := b) cs
  rw [found] at read
  change b.Yields _ _ (do return [⟨← numeral.read b.runtime, .text rest⟩]) at read
  cases value : numeral.read b.runtime with
  | ok v =>
    obtain ⟨-, rfl⟩ := Numeral.read_eq_ok_iff.mp value
    rw [value] at read
    have plain : (Value.int numeral.value).IsPlain := trivial
    have number := (produces_token plain (shows_int _) read).yields
    exact (produces_orElse_left (v := .parser _) number shows_between).yields
  | error e =>
    rw [value] at read
    have number := (produces_step_error (f := .skipSpace) read).yields
    exact (produces_orElse_error (v := .parser _) number shows_between).yields

/-- Where no number begins, there may be parentheses. -/
theorem yields_factor_between (missing : numeralAt? cs = none)
    {r : Except Error (List Derivation)}
    (brackets : b.Yields (inner.between (Parser.sign '(') (Parser.sign ')')) (.text cs) r) :
    b.Yields (Level.factor.parser inner) (.text cs) r := by
  have read := yields_integer (b := b) cs
  rw [missing] at read
  have number := (produces_step_nil (f := .skipSpace) read).yields
  exact (produces_orElse_right (v := .parser _) number brackets).yields

/-- Neither a number nor parentheses. -/
theorem yields_factor_nil (missing : numeralAt? cs = none)
    (other : ∀ ds, cs ≠ '(' :: ds) : b.Yields (Level.factor.parser inner) (.text cs) (.ok []) := by
  refine yields_factor_between missing (produces_step_nil ?_).yields
  cases cs with
  | nil => exact yields_sign_nil '('
  | cons c ds =>
    have opening := yields_sign (b := b) '(' c ds
    rwa [if_neg fun same => other ds (by rw [eq_of_beq same])] at opening

/-- After a parenthesis, everything depends on the expression in it and on what follows that. -/
theorem yields_factor_body {r : Except Error (List Derivation)}
    (body : b.Yields (inner.step (.close (Parser.sign ')'))) (.text (skipBlanks cs)) r) :
    b.Yields (Level.factor.parser inner) (.text ('(' :: cs)) r :=
  yields_factor_between rfl (yields_between_of_body (yields_sign '(' '(' cs) body)

theorem yields_factor_body_nil (inside : b.Yields inner (.text (skipBlanks cs)) (.ok [])) :
    b.Yields (Level.factor.parser inner) (.text ('(' :: cs)) (.ok []) :=
  yields_factor_body (produces_step_nil inside).yields

theorem yields_factor_body_error (inside : b.Yields inner (.text (skipBlanks cs)) (.error e)) :
    b.Yields (Level.factor.parser inner) (.text ('(' :: cs)) (.error e) :=
  yields_factor_body (produces_step_error inside).yields

/-- The value in parentheses is that of the expression, if they are closed. -/
theorem yields_factor_closed {rest : List Char} (number : IsNumber v)
    (inside : b.Yields inner (.text (skipBlanks cs)) (.ok [⟨v, .text (')' :: rest)⟩])) :
    b.Yields (Level.factor.parser inner) (.text ('(' :: cs))
      (.ok [⟨v, .text (skipBlanks rest)⟩]) := by
  have closing := yields_sign (b := b) ')' ')' rest
  exact yields_factor_body (yields_close rfl inside
    (produces_step_constant number.isPlain number.shows closing).yields)

/-- Parentheses that are not closed are none. -/
theorem yields_factor_unclosed {rest : List Char}
    (inside : b.Yields inner (.text (skipBlanks cs)) (.ok [⟨v, .text rest⟩]))
    (other : ∀ ds, rest ≠ ')' :: ds) :
    b.Yields (Level.factor.parser inner) (.text ('(' :: cs)) (.ok []) := by
  refine yields_factor_body (yields_close rfl inside (produces_step_nil ?_).yields)
  cases rest with
  | nil => exact yields_sign_nil ')'
  | cons c ds =>
    have closing := yields_sign (b := b) ')' c ds
    rwa [if_neg fun same => other ds (by rw [eq_of_beq same])] at closing

/-! ## Chains -/

/-- What the operators and operands of a level gather from a text on and what they leave, or their
error; the operands are numbers. -/
structure RunsTo (b : Effects) (inner : Parser) (l : Level) (cs : List Char)
    (o : Except Error (List (Operator × Value) × List Char)) : Prop where
  runs : b.Runs (l.step inner) (.text cs)
    (o.map fun (pairs, rest) => (pairs.map (Operates.pair Operator.function), .text rest))
  numbers : ∀ pairs rest, o = .ok (pairs, rest) → ∀ p ∈ pairs, IsNumber p.2

namespace RunsTo

variable {o : Operator} {rest : List Char}
  {out out' : Except Error (List (Operator × Value) × List Char)}

/-- No operator of the level begins. -/
theorem stop
    (other : ∀ c ds, cs = c :: ds → ∀ o ∈ l.operators, o.sign ≠ c) :
    RunsTo b inner l cs (.ok ([], cs)) := by
  refine ⟨.stop (produces_step_nil (yields_matcher_nil other)).yields, ?_⟩
  intro pairs rest same
  cases same
  exact List.forall_mem_nil _

/-- No operand follows the operator. -/
theorem stop_operand (member : o ∈ l.operators)
    (operand : b.Yields (l.below.parser inner) (.text (skipBlanks cs)) (.ok [])) :
    RunsTo b inner l (o.sign :: cs) (.ok ([], o.sign :: cs)) := by
  have pair := (produces_step_nil (f := .pair o.function) operand).yields
  refine ⟨.stop (yields_operand (yields_matcher member cs) pair), ?_⟩
  intro pairs rest same
  cases same
  exact List.forall_mem_nil _

theorem error (member : o ∈ l.operators)
    (operand : b.Yields (l.below.parser inner) (.text (skipBlanks cs)) (.error e)) :
    RunsTo b inner l (o.sign :: cs) (.error e) := by
  have pair := (produces_step_error (f := .pair o.function) operand).yields
  refine ⟨.error (yields_operand (yields_matcher member cs) pair), ?_⟩
  exact fun _ _ same => nomatch same

/-- An operator and its operand, and the ones after them. -/
theorem next (member : o ∈ l.operators) (number : IsNumber v)
    (operand : b.Yields (l.below.parser inner) (.text (skipBlanks cs)) (.ok [⟨v, .text rest⟩]))
    (shorter : rest.length ≤ cs.length) (others : RunsTo b inner l rest out) :
    RunsTo b inner l (o.sign :: cs) (out.map fun (pairs, left) => ((o, v) :: pairs, left)) := by
  have pair := yields_operand (yields_matcher member cs)
    (yields_pair (shows_function _) number.shows (shows_text _) operand)
  have whole := Runs.next pair trivial (Nat.lt_succ_of_le shorter) others.runs
  cases out with
  | error e => exact ⟨whole, fun _ _ same => nomatch same⟩
  | ok found =>
    refine ⟨whole, fun pairs left same => ?_⟩
    cases same
    exact List.forall_mem_cons.mpr ⟨number, others.numbers _ _ rfl⟩

theorem length_le {pairs : List (Operator × Value)}
    (runs : RunsTo b inner l cs (.ok (pairs, rest))) : rest.length ≤ cs.length :=
  runs.runs.width_le

/-- Two runs on a text leave the same, if there is no error. -/
theorem exists_of_unique {s : Store} (start : b.start s) {pairs : List (Operator × Value)}
    (runs : RunsTo b inner l cs out)
    (runs' : RunsTo b inner l cs (.ok (pairs, rest))) : ∃ pairs', out = .ok (pairs', rest) := by
  have same := runs.runs.unique start runs'.runs
  cases out with
  | error e => cases same
  | ok found =>
    obtain ⟨pairs', left⟩ := found
    have left_eq : left = rest := by
      have both := congrArg Prod.snd (Except.ok.inj same)
      exact Value.text.inj both
    exact ⟨pairs', by rw [left_eq]⟩

end RunsTo

variable {x a : Value}

/-- A chain is the fold of its first operand and of what its run gathers. -/
theorem yields_chain (chain : l ≠ .factor) (number : IsNumber a)
    (first : b.Yields (l.below.parser inner) x (.ok [⟨a, .text cs⟩]))
    {o : Except Error (List (Operator × Value) × List Char)} (run : RunsTo b inner l cs o) :
    b.Yields (l.parser inner) x (o >>= fun (pairs, rest) => do
      return [⟨← foldWith Operator.apply l.rightmost a pairs, .text rest⟩]) := by
  rw [Level.parser_eq_chain chain inner]
  have actual : l.matcher.isForeign = false := by cases l <;> rfl
  cases o with
  | error e =>
    exact Effects.yields_chain actual (fun _ => .error e) first trivial run.runs
      (fun _ _ same => nomatch same) fun _ _ _ same => nomatch same
  | ok found =>
    obtain ⟨pairs, rest⟩ := found
    have all := run.numbers pairs rest rfl
    refine Effects.yields_chain actual
      (fun _ => foldWith Operator.apply l.rightmost a pairs) first trivial run.runs ?_ ?_
    · intro gathered z same
      cases same
      exact (operates b).settles_foldOperands l.rightmost pairs number all
    · intro gathered z v same folded
      have folded_number := keepsTo_isNumber.fold number all folded
      exact ⟨folded_number.isPlain, folded_number.shows⟩

theorem yields_chain_nil (chain : l ≠ .factor)
    (first : b.Yields (l.below.parser inner) x (.ok [])) :
    b.Yields (l.parser inner) x (.ok []) := by
  rw [Level.parser_eq_chain chain inner]
  exact (produces_step_nil first).yields

theorem yields_chain_error (chain : l ≠ .factor)
    (first : b.Yields (l.below.parser inner) x (.error e)) :
    b.Yields (l.parser inner) x (.error e) := by
  rw [Level.parser_eq_chain chain inner]
  exact (produces_step_error first).yields

end GrammarKit.Expression
