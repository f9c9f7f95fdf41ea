import GrammarKit.Proofs.Branching.Repetition

/-! # Operators and operands with several derivations

The steps of a chain are the ways to go on by an operator and an operand after it; an operator that
no operand comes after is no step, so it is left where it is. Every path of steps from a first
operand on is one derivation of the chain, and its value is folded along the path, in the one
direction or the other.
-/

namespace GrammarKit

/-- Operators with operands, and what is left after each. -/
abbrev Steps := List ((Value × Value) × Value)

/-- The ways to go on in a chain: each operator with each operand after it, in order. -/
def chainSteps (operands operators : Value → List Derivation) (v : Value) :
    List ((Value × Value) × Value) :=
  (operators v).flatMap fun d =>
    (operands d.remainder).map fun e => ((d.value, e.value), e.remainder)

/-- An operator with an operand after it, as a derivation. -/
def pairDerivations (operands operators : Value → List Derivation) (v : Value) :
    List Derivation :=
  (operators v).flatMap fun d =>
    (operands d.remainder).map fun e => ⟨.tuple [d.value, e.value], e.remainder⟩

/-- Operators and operands as they are gathered. -/
def gatherPairs (steps : Steps) : List Value :=
  steps.map fun step => .tuple [step.1.1, step.1.2]

/-- The value of a chain: each operator is applied to what the ones before it gave and to its
operand. -/
def foldAlong (apply : Value → Value → Value → Value) (a : Value)
    (path : List ((Value × Value) × Value)) : Value :=
  path.foldl (fun a step => apply step.1.1 a step.1.2) a

/-- The derivations of a chain that is folded by `fold`: for each first operand and each path of
steps after it, in order, the value along the path and what is left at its end. -/
def foldedChain (extent : Value → Nat) (fold : Value → Steps → Value)
    (operands operators : Value → List Derivation) (starts : List Derivation) : List Derivation :=
  starts.flatMap fun d =>
    (paths extent (chainSteps operands operators) d.remainder).map fun path =>
      ⟨fold d.value path, remainderAfter d.remainder path⟩

variable {extent : Value → Nat} {inputs between : Value → Prop} {p op : Parser} {x : Value}
  {operands operators : Value → List Derivation} {starts : List Derivation}
  {fold : Value → Steps → Value} {rightmost : Bool}

theorem steps_pairDerivations (v : Value) : steps (pairDerivations operands operators) v =
    (chainSteps operands operators v).map (Prod.map (fun pair => .tuple [pair.1, pair.2]) id) := by
  simp only [steps, pairDerivations, chainSteps, List.map_flatMap, List.map_map]
  rfl

/-- The paths of pairs are those of operators and operands. -/
theorem paths_pairDerivations (v : Value) :
    paths extent (steps (pairDerivations operands operators)) v =
      (paths extent (chainSteps operands operators) v).map
        (List.map (Prod.map (fun pair => .tuple [pair.1, pair.2]) id)) := by
  rw [funext steps_pairDerivations, paths_map]

/-- A step of a chain is an operator and an operand after it. -/
theorem exists_of_mem_chainSteps {v : Value} {step : (Value × Value) × Value}
    (member : step ∈ chainSteps operands operators v) :
    ∃ d ∈ operators v, ∃ e ∈ operands d.remainder,
      step = ((d.value, e.value), e.remainder) := by
  obtain ⟨d, first, member⟩ := List.mem_flatMap.mp member
  obtain ⟨e, second, rfl⟩ := List.mem_map.mp member
  exact ⟨d, first, e, second, rfl⟩

namespace Effects

variable {b : Effects}

theorem shows_pair {v w : Value} (first : b.Shows v) (second : b.Shows w) :
    b.Shows (.tuple [v, w]) :=
  .of_parts (Value.shownBy_tuple [v, w])
    (List.forall_mem_cons.mpr ⟨first, List.forall_mem_singleton.mpr second⟩)

/-- An operand after an operator. -/
theorem yields_pair_map {w : Value} {ds : List Derivation} (function : b.Shows w)
    (values : ∀ d ∈ ds, b.Shows d.value) (left : ∀ d ∈ ds, b.Shows d.remainder)
    (operand : b.Yields p x (.ok ds)) :
    b.Yields (p.step (.pair w)) x
      (.ok (ds.map fun d => ⟨.tuple [w, d.value], d.remainder⟩)) := by
  rw [← List.map_id ds] at operand
  rw [List.map_eq_flatMap]
  refine yields_step_flatMap rfl id operand
    (fun d _ => gives_next (q := .result (.tuple [w, d.value])) fun _ => rfl) fun d member => ?_
  exact yields_result (shows_pair function (values d member)) (left d member) (by nofun)

/-- Operators with operands. -/
theorem Enumerates.step_operand (operator : b.Enumerates inputs between op operators)
    (operand : b.Enumerates between inputs p operands)
    (functions : b.Presents inputs operators) (values : b.Presents between operands) :
    b.Enumerates inputs inputs (op.step (.operand p)) (pairDerivations operands operators) where
  yields := by
    intro v input
    have first := operator.yields v input
    rw [← List.map_id (operators v)] at first
    refine yields_step_flatMap rfl id first
      (fun d _ => gives_next (q := p.step (.pair d.value)) fun _ => rfl) fun d member => ?_
    have after := operator.leaves v input d member
    exact yields_pair_map (functions v input d member) (values _ after)
      (fun e inside => (operator.yields _ (operand.leaves _ after e inside)).read)
      (operand.yields _ after)
  leaves := by
    intro v input pair member
    obtain ⟨d, first, member⟩ := List.mem_flatMap.mp member
    obtain ⟨e, second, rfl⟩ := List.mem_map.mp member
    exact operand.leaves _ (operator.leaves v input d first) e second

/-- Operators with operands, as often as they come. -/
theorem yields_operatorPairs
    (pairs : b.Enumerates inputs inputs (op.step (.operand p)) (pairDerivations operands operators))
    (measured : b.Measures extent inputs) (input : inputs x) :
    b.Yields (p.operatorPairs op) x
      (.ok ((paths extent (chainSteps operands operators) x).map fun path =>
        ⟨.list (gatherPairs path), remainderAfter x path⟩)) := by
  have all := pairs.yields_manyOrNone measured input
  rw [paths_pairDerivations, List.map_map] at all
  simp only [Function.comp_def, remainderAfter_map, List.map_map] at all
  exact all

/-- Whether operators give what `apply` says, each for what the ones before it gave and for its
operand. -/
def AppliesForth (b : Effects) (apply : Value → Value → Value → Value) : Value → Steps → Prop
  | _, [] => True
  | a, ((f, y), _) :: rest =>
    b.Gives f [a, y] (.ok (apply f a y)) ∧ b.AppliesForth apply (apply f a y) rest

/-- From the left, a chain is folded along its steps. -/
theorem AppliesForth.settles_foldOperands {apply : Value → Value → Value → Value} {a : Value}
    {steps : Steps} (applies : b.AppliesForth apply a steps) :
    b.Settles (fun ev => ev.foldOperands false a (.list (gatherPairs steps)))
      (.ok (foldAlong apply a steps)) := by
  have loop : b.Settles (fun ev => ev.foldLeft a (gatherPairs steps))
      (.ok (foldAlong apply a steps)) := by
    induction steps generalizing a with
    | nil => exact .lift (.ok a)
    | cons step steps ih => exact .bind applies.1 (ih applies.2)
  exact loop

/-- Whether folding gives a plain value along each path from what is left of a first operand. -/
def FoldsTo (b : Effects) (extent : Value → Nat) (rightmost : Bool)
    (fold : Value → Steps → Value)
    (operands operators : Value → List Derivation) (d : Derivation) : Prop :=
  ∀ path ∈ paths extent (chainSteps operands operators) d.remainder,
    b.Settles (fun ev => ev.foldOperands rightmost d.value (.list (gatherPairs path)))
        (.ok (fold d.value path)) ∧
      (fold d.value path).IsPlain ∧ b.Shows (fold d.value path)

/-- After the first operand: the value along each path. -/
theorem yields_folded
    (pairs : b.Enumerates inputs inputs (op.step (.operand p)) (pairDerivations operands operators))
    (measured : b.Measures extent inputs) {d : Derivation} (input : inputs d.remainder)
    (folds : b.FoldsTo extent rightmost fold operands operators d) :
    b.Yields ((p.operatorPairs op).step (.fold rightmost d.value)) d.remainder
      (.ok (foldedChain extent fold operands operators [d])) := by
  rw [foldedChain, List.flatMap_singleton, List.map_eq_flatMap]
  refine yields_step_flatMap rfl _ (yields_operatorPairs pairs measured input)
    (fun path member => .of_step (fun _ => rfl) (folds path member).1) fun path member => ?_
  obtain ⟨_, plain, shown⟩ := folds path member
  have gathered : path.map (Prod.map (fun pair => .tuple [pair.1, pair.2]) id) ∈
      paths extent (steps (pairDerivations operands operators)) d.remainder := by
    rw [paths_pairDerivations]
    exact List.mem_map_of_mem member
  have read := pairs.shows_remainderAfter input gathered
  rw [remainderAfter_map] at read
  exact yields_asParser plain shown read

/-- A chain has a derivation for each derivation of its first operand and each path of operators
and operands after it. -/
theorem yields_foldedChain {s : Store} (started : b.start s)
    (operand : b.Enumerates between inputs p operands)
    (operator : b.Enumerates inputs between op operators)
    (measured : b.Measures extent inputs) (functions : b.Presents inputs operators)
    (values : b.Presents between operands) (first : b.Yields p x (.ok starts))
    (left : ∀ d ∈ starts, inputs d.remainder)
    (folds : ∀ d ∈ starts, b.FoldsTo extent rightmost fold operands operators d) :
    b.Yields (p.chain op rightmost .missing) x
      (.ok (foldedChain extent fold operands operators starts)) := by
  have pairs := operator.step_operand operand functions values
  rw [← List.map_id starts] at first
  refine yields_step_flatMap rfl id first
    (k := fun d => .parser ((p.operatorPairs op).step (.fold rightmost d.value)))
    (fun d member => gives_next fun ev => ?_) fun d member => ?_
  · have actual := (operator.yields _ (left d member)).actual started
    change (Evaluator.actual op >>= fun q => _) = _
    rw [Evaluator.actual, actual]
    rfl
  · have after := yields_folded pairs measured (left d member) (folds d member)
    rw [foldedChain, List.flatMap_singleton] at after
    exact after

end Effects

end GrammarKit
