import GrammarKit.Proofs.Characters
import GrammarKit.Proofs.Folding

/-! # Chains and brackets

A chain of operands without alternatives: the first operand, then a run of operators with an
operand each, folded in the end. An operator without an operand after it ends the run, and what was
in between is left as it was. Brackets keep the value between them.
-/

namespace GrammarKit.Effects

variable {b : Effects} {p op left right : Parser} {x y z v w : Value} {e : Error}
  {r : Except Error (List Derivation)}

/-- After an operator, everything depends on its operand. -/
theorem yields_operand (operator : b.Yields op x (.ok [⟨w, y⟩]))
    (operand : b.Yields (p.step (.pair w)) y r) : b.Yields (op.step (.operand p)) x r :=
  (produces_step rfl operator (gives_next fun _ => rfl) operand).yields

theorem yields_pair (function : b.Shows w) (value : b.Shows v) (left : b.Shows z)
    (operand : b.Yields p y (.ok [⟨v, z⟩])) :
    b.Yields (p.step (.pair w)) y (.ok [⟨.tuple [w, v], z⟩]) := by
  have shown : b.Shows (.tuple [w, v]) :=
    .of_parts (Value.shownBy_tuple [w, v]) (by simp [function, value])
  exact (produces_step rfl operand (gives_next fun _ => rfl)
    (yields_result shown left (by nofun))).yields

variable {a : Value} {o : Except Error (List Value × Value)} {rightmost : Bool}

/-- A chain folds what its run gathers onto the first operand. -/
theorem yields_chain (actual : op.isForeign = false) (fold : List Value → Except Error Value)
    (first : b.Yields p x (.ok [⟨a, y⟩])) (sequence : y.IsSequence)
    (runs : b.Runs (op.step (.operand p)) y o)
    (folds : ∀ pairs z, o = .ok (pairs, z) →
      b.Settles (fun ev => ev.foldOperands rightmost a (.list pairs)) (fold pairs))
    (plain : ∀ pairs z v, o = .ok (pairs, z) → fold pairs = .ok v → v.IsPlain ∧ b.Shows v) :
    b.Yields (p.chain op rightmost .missing) x
      (o >>= fun (pairs, z) => do return [⟨← fold pairs, z⟩]) := by
  have continues : b.Gives (.function (.operands p op rightmost)) [a]
      (.ok (.parser ((p.operatorPairs op).step (.fold rightmost a)))) := by
    refine gives_next fun ev => ?_
    change (Evaluator.actual op >>= fun q => _) = _
    rw [Evaluator.actual, actual]
    rfl
  refine (produces_step rfl first continues ?_).yields
  have gathers := (runs.produces_manyOrNone .sequence sequence).yields
  cases o with
  | error e => exact (produces_step_error gathers).yields
  | ok found =>
    obtain ⟨pairs, z⟩ := found
    have folded : b.Gives (.function (.fold rightmost a)) [.list pairs] (fold pairs) :=
      .of_step (fun _ => rfl) (folds pairs z rfl)
    change b.Yields (Parser.step _ _) y (do return [⟨← fold pairs, z⟩])
    cases value : fold pairs with
    | ok v =>
      rw [value] at folded
      obtain ⟨plain, shown⟩ := plain pairs z v rfl value
      exact (produces_step rfl gathers folded
        (yields_asParser plain shown runs.shows_left)).yields
    | error e =>
      rw [value] at folded
      exact (produces_step_given_error rfl gathers folded).yields

/-! ## Brackets -/

/-- After the left delimiter, everything depends on what is between the delimiters. -/
theorem yields_between_of_body (opening : b.Yields left x (.ok [⟨w, y⟩]))
    (body : b.Yields (p.step (.close right)) y r) : b.Yields (p.between left right) x r :=
  (produces_step rfl opening (gives_next fun _ => rfl) body).yields

/-- After the body, everything depends on the right delimiter. -/
theorem yields_close (actual : right.isForeign = false) (body : b.Yields p y (.ok [⟨v, z⟩]))
    (closing : b.Yields (right.step (.constant v)) z r) :
    b.Yields (p.step (.close right)) y r := by
  refine (produces_step rfl body (gives_next fun ev => ?_) closing).yields
  change (Evaluator.actual right >>= fun q => _) = _
  rw [Evaluator.actual, actual]
  rfl

end GrammarKit.Effects
