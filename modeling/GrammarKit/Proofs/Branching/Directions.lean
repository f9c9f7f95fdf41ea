import GrammarKit.Proofs.Branching.Chains

/-! # The two directions of a chain

Folded from the right, a chain goes over the same paths as one that is folded from the left, and
only the values differ. The loop that goes through the pairs backwards is a recursion over the path:
each operator is called on the operand before it and on what the operators after it gave, so they
are called from the last one to the first. Where they all act as one associative function, the two
directions agree.
-/

namespace GrammarKit

/-- The value of a chain from the right: each operator is applied to the operand before it and to
what the ones after it gave. -/
def foldBack (apply : Value → Value → Value → Value) (a : Value) : Steps → Value
  | [] => a
  | ((f, y), _) :: rest => apply f a (foldBack apply y rest)

/-- The operand that an operator after the steps meets. -/
def operandBefore (a : Value) : Steps → Value
  | [] => a
  | ((_, y), _) :: rest => operandBefore y rest

theorem operandBefore_concat (a : Value) (steps : Steps) (f y v : Value) :
    operandBefore a (steps ++ [((f, y), v)]) = y := by
  induction steps generalizing a with
  | nil => rfl
  | cons step steps ih => exact ih step.1.2

/-! ## The order of the calls -/

namespace Evaluator

variable (ev : Evaluator)

/-- Calls the operators of a chain from the last one to the first. -/
def callBack (a : Value) : Steps → Eval Value
  | [] => pure a
  | ((f, y), _) :: rest => do
    let gathered ← callBack y rest
    ev.call f [a, gathered]

/-- Calls the operators from the last one to the first, where `last` replaces the last operand. -/
def callBackOnto (a last : Value) : Steps → Eval Value
  | [] => pure last
  | ((f, y), _) :: rest => do
    let gathered ← callBackOnto y last rest
    ev.call f [a, gathered]

theorem callBack_eq (a : Value) (steps : Steps) :
    ev.callBack a steps = ev.callBackOnto a (operandBefore a steps) steps := by
  induction steps generalizing a with
  | nil => rfl
  | cons step steps ih => simp only [callBack, callBackOnto, operandBefore, ih]

/-- The last operator is called first. -/
theorem callBackOnto_concat (a last f y v : Value) (steps : Steps) :
    ev.callBackOnto a last (steps ++ [((f, y), v)]) = (do
      let gathered ← ev.call f [operandBefore a steps, last]
      ev.callBackOnto a gathered steps) := by
  induction steps generalizing a with
  | nil => simp only [List.nil_append, callBackOnto, operandBefore, pure_bind, bind_pure]
  | cons step steps ih =>
    simp only [List.cons_append, callBackOnto, operandBefore, ih, bind_assoc]

theorem itemOf_zero (f y : Value) : itemOf (.tuple [f, y]) 0 = pure f := rfl

theorem itemOf_one (f y : Value) : itemOf (.tuple [f, y]) 1 = pure y := rfl

/-- Going through the pairs backwards calls the operators from the last one to the first. -/
theorem foldRight_eq (a gathered : Value) (backwards : Steps) :
    ev.foldRight a gathered (gatherPairs backwards) =
      ev.callBackOnto a gathered backwards.reverse := by
  induction backwards generalizing gathered with
  | nil => rfl
  | cons step before ih =>
    obtain ⟨⟨f, y⟩, v⟩ := step
    rw [List.reverse_cons, callBackOnto_concat]
    simp only [gatherPairs, List.map_cons, foldRight, itemOf_zero, pure_bind] at ih ⊢
    -- The operand that `f` meets is that of the step before it, if there is one.
    cases before with
    | nil =>
      simp only [List.map_nil, List.reverse_nil, operandBefore]
      exact congrArg (ev.call f [a, gathered] >>= ·) (funext ih)
    | cons previous others =>
      obtain ⟨⟨g, z⟩, w⟩ := previous
      simp only [List.map_cons, itemOf_one, pure_bind, List.reverse_cons, operandBefore_concat]
        at ih ⊢
      exact congrArg (ev.call f [z, gathered] >>= ·) (funext ih)

/-- A loop from the right begins with the last pair. -/
theorem foldOperands_true_concat (a f y : Value) (pairs : List Value) :
    ev.foldOperands true a (.list (pairs ++ [.tuple [f, y]])) =
      ev.foldRight a y (.tuple [f, y] :: pairs.reverse) := by
  funext s
  have some_ : (truth (.list (pairs ++ [.tuple [f, y]]))) s = .ok true s := by
    rw [truth, Eval.readResults_bind]
    simp only [Value.truth, List.isEmpty_eq_false_iff.mpr (List.concat_ne_nil _ _), Bool.not_false]
    rfl
  simp only [foldOperands, if_true]
  rw [Eval.bind_of_eq_ok some_, if_pos rfl, Eval.readResults_bind]
  rw [Eval.lift_bind (x := Value.items _ (.list _)) rfl, List.reverse_concat]
  rfl

/-- A chain that is folded from the right calls its operators from the last one to the first,
whatever they do. -/
theorem foldOperands_true (a : Value) (steps : Steps) :
    ev.foldOperands true a (.list (gatherPairs steps)) = ev.callBack a steps := by
  rw [callBack_eq, ← List.reverse_reverse steps]
  generalize steps.reverse = backwards
  cases backwards with
  | nil => rfl
  | cons step before =>
    obtain ⟨⟨f, y⟩, v⟩ := step
    have concat : gatherPairs (((f, y), v) :: before).reverse =
        (gatherPairs before).reverse ++ [.tuple [f, y]] := by
      simp [gatherPairs]
    rw [concat, foldOperands_true_concat, List.reverse_reverse, List.reverse_cons,
      operandBefore_concat, ← List.reverse_cons, ← foldRight_eq]
    rfl

end Evaluator

/-! ## Values -/

/-- Whether a function of two values is associative where values are good. -/
structure IsAssociativeOn (good : Value → Prop) (φ : Value → Value → Value) : Prop where
  closed : ∀ a c, good a → good c → good (φ a c)
  assoc : ∀ a c e, good a → good c → good e → φ (φ a c) e = φ a (φ c e)

namespace IsAssociativeOn

variable {good : Value → Prop} {φ : Value → Value → Value} {a c : Value} {steps : Steps}

theorem good_foldAlong (associative : IsAssociativeOn good φ) (first : good a)
    (all : ∀ step ∈ steps, good step.1.2) : good (foldAlong (fun _ => φ) a steps) := by
  induction steps generalizing a with
  | nil => exact first
  | cons step steps ih =>
    obtain ⟨operand, others⟩ := List.forall_mem_cons.mp all
    exact ih (associative.closed a _ first operand) others

theorem foldAlong_apply (associative : IsAssociativeOn good φ) (first : good a) (second : good c)
    (all : ∀ step ∈ steps, good step.1.2) :
    foldAlong (fun _ => φ) (φ a c) steps = φ a (foldAlong (fun _ => φ) c steps) := by
  induction steps generalizing c with
  | nil => rfl
  | cons step steps ih =>
    obtain ⟨operand, others⟩ := List.forall_mem_cons.mp all
    have regrouped := associative.assoc a c _ first second operand
    calc foldAlong (fun _ => φ) (φ (φ a c) step.1.2) steps
        = foldAlong (fun _ => φ) (φ a (φ c step.1.2)) steps := by rw [regrouped]
      _ = φ a (foldAlong (fun _ => φ) (φ c step.1.2) steps) :=
        ih (associative.closed c _ second operand) others

/-- An associative function gives the same in either direction. -/
theorem foldBack_eq (associative : IsAssociativeOn good φ) (first : good a)
    (all : ∀ step ∈ steps, good step.1.2) :
    foldBack (fun _ => φ) a steps = foldAlong (fun _ => φ) a steps := by
  induction steps generalizing a with
  | nil => rfl
  | cons step steps ih =>
    obtain ⟨operand, others⟩ := List.forall_mem_cons.mp all
    calc φ a (foldBack (fun _ => φ) step.1.2 steps)
        = φ a (foldAlong (fun _ => φ) step.1.2 steps) := by rw [ih operand others]
      _ = foldAlong (fun _ => φ) (φ a step.1.2) steps :=
        (associative.foldAlong_apply first operand others).symm

end IsAssociativeOn

namespace Effects

variable {b : Effects} {apply : Value → Value → Value → Value} {a : Value} {steps : Steps}

/-- Whether operators give what `apply` says, each for the operand before it and for what the ones
after it gave. -/
def AppliesBack (b : Effects) (apply : Value → Value → Value → Value) : Value → Steps → Prop
  | _, [] => True
  | a, ((f, y), _) :: rest =>
    b.AppliesBack apply y rest ∧
      b.Gives f [a, foldBack apply y rest] (.ok (apply f a (foldBack apply y rest)))

/-- From the right, a chain is folded back along its steps. -/
theorem AppliesBack.settles_foldOperands (applies : b.AppliesBack apply a steps) :
    b.Settles (fun ev => ev.foldOperands true a (.list (gatherPairs steps)))
      (.ok (foldBack apply a steps)) := by
  have calls : b.Settles (fun ev => ev.callBack a steps) (.ok (foldBack apply a steps)) := by
    induction steps generalizing a with
    | nil => exact .lift (.ok a)
    | cons step steps ih => exact .bind (ih applies.1) applies.2
  refine calls.congr fun n s _ => ?_
  rw [Evaluator.foldOperands_true]

/-- Whether the operators give what `apply` says in both directions, along all paths from what is
left of a first operand, and plain values in the end. -/
def FoldsBothWays (b : Effects) (extent : Value → Nat) (apply : Value → Value → Value → Value)
    (operands operators : Value → List Derivation) (d : Derivation) : Prop :=
  ∀ path ∈ paths extent (chainSteps operands operators) d.remainder,
    (b.AppliesBack apply d.value path ∧
      (foldBack apply d.value path).IsPlain ∧ b.Shows (foldBack apply d.value path)) ∧
    b.AppliesForth apply d.value path ∧
      (foldAlong apply d.value path).IsPlain ∧ b.Shows (foldAlong apply d.value path)

section

variable {good : Value → Prop} {φ : Value → Value → Value}

/-- Operators that act as one associative function are applied in either direction. -/
theorem applies_of_acts (associative : IsAssociativeOn good φ) (first : good a)
    (acts : ∀ step ∈ steps, good step.1.2 ∧
      ∀ a c, good a → good c → b.Gives step.1.1 [a, c] (.ok (φ a c))) :
    b.AppliesBack (fun _ => φ) a steps ∧ b.AppliesForth (fun _ => φ) a steps := by
  induction steps generalizing a with
  | nil => exact ⟨trivial, trivial⟩
  | cons step steps ih =>
    obtain ⟨⟨operand, gives⟩, others⟩ := List.forall_mem_cons.mp acts
    have after := associative.good_foldAlong operand fun step member => (others step member).1
    rw [← associative.foldBack_eq operand fun step member => (others step member).1] at after
    exact ⟨⟨(ih operand others).1, gives _ _ first after⟩, gives _ _ first operand,
      (ih (associative.closed _ _ first operand) others).2⟩

end

variable {extent : Value → Nat} {inputs between : Value → Prop} {p op : Parser} {x : Value}
  {operands operators : Value → List Derivation} {starts : List Derivation} {s : Store}

/-- What is left by a chain depends on its paths alone. -/
theorem remainders_foldedChain (fold : Value → Steps → Value) :
    (foldedChain extent fold operands operators starts).map (·.remainder) =
      starts.flatMap fun d =>
        (paths extent (chainSteps operands operators) d.remainder).map
          (remainderAfter d.remainder) := by
  simp only [foldedChain, List.map_flatMap, List.map_map]
  rfl

/-- What all operators and operands are, those on a path are. -/
theorem acts_along {good : Value → Prop} {φ : Value → Value → Value}
    (operand : b.Enumerates between inputs p operands)
    (operator : b.Enumerates inputs between op operators)
    (goods : ∀ v, between v → ∀ d ∈ operands v, good d.value)
    (acts : ∀ v, inputs v → ∀ d ∈ operators v,
      ∀ a c, good a → good c → b.Gives d.value [a, c] (.ok (φ a c)))
    (input : inputs x) (inside : steps ∈ paths extent (chainSteps operands operators) x) :
    ∀ step ∈ steps, good step.1.2 ∧
      ∀ a c, good a → good c → b.Gives step.1.1 [a, c] (.ok (φ a c)) := by
  have maximal := (mem_paths_iff x steps).mp inside
  refine maximal.forall_mem (P := fun pair => good pair.2 ∧
    ∀ a c, good a → good c → b.Gives pair.1 [a, c] (.ok (φ a c))) ?_ ?_ input
  · intro v input step member
    obtain ⟨d, first, e, second, rfl⟩ := exists_of_mem_chainSteps member
    exact operand.leaves _ (operator.leaves v input d first) e second
  · intro v input step member
    obtain ⟨d, first, e, second, rfl⟩ := exists_of_mem_chainSteps member
    exact ⟨goods _ (operator.leaves v input d first) e second, acts v input d first⟩

/-- Folded from the right, a chain has the same paths as one that is folded from the left, hence
the same remainders in the same order, and its value along a path is that of the recursion
`foldBack`, whose functions are called from the last one to the first. If all of them act as one
associative function, the two chains have the same derivations. -/
theorem chain_yields_in_both_directions (started : b.start s)
    (operand : b.Enumerates between inputs p operands)
    (operator : b.Enumerates inputs between op operators)
    (measured : b.Measures extent inputs) (functions : b.Presents inputs operators)
    (values : b.Presents between operands) (first : b.Yields p x (.ok starts))
    (left : ∀ d ∈ starts, inputs d.remainder) :
    (∀ apply, (∀ d ∈ starts, b.FoldsBothWays extent apply operands operators d) →
      b.Yields (p.chain op true .missing) x
          (.ok (foldedChain extent (foldBack apply) operands operators starts)) ∧
        b.Yields (p.chain op false .missing) x
          (.ok (foldedChain extent (foldAlong apply) operands operators starts)) ∧
        (foldedChain extent (foldBack apply) operands operators starts).map (·.remainder) =
          (foldedChain extent (foldAlong apply) operands operators starts).map (·.remainder)) ∧
    (∀ (ev : Evaluator) a steps,
      ev.foldOperands true a (.list (gatherPairs steps)) = ev.callBack a steps) ∧
    ∀ good φ, IsAssociativeOn good φ → (∀ v, good v → v.IsPlain ∧ b.Shows v) →
      (∀ d ∈ starts, good d.value) → (∀ v, between v → ∀ d ∈ operands v, good d.value) →
      (∀ v, inputs v → ∀ d ∈ operators v,
        ∀ a c, good a → good c → b.Gives d.value [a, c] (.ok (φ a c))) →
      ∀ rightmost, b.Yields (p.chain op rightmost .missing) x
        (.ok (foldedChain extent (foldAlong fun _ => φ) operands operators starts)) := by
  have whole {rightmost : Bool} {fold : Value → Steps → Value}
      (folds : ∀ d ∈ starts, b.FoldsTo extent rightmost fold operands operators d) :=
    yields_foldedChain started operand operator measured functions values first left folds
  refine ⟨fun apply folds => ⟨?_, ?_, ?_⟩, Evaluator.foldOperands_true, ?_⟩
  · refine whole fun d member path inside => ?_
    obtain ⟨⟨applies, plain⟩, -⟩ := folds d member path inside
    exact ⟨applies.settles_foldOperands, plain⟩
  · refine whole fun d member path inside => ?_
    obtain ⟨-, applies, plain⟩ := folds d member path inside
    exact ⟨applies.settles_foldOperands, plain⟩
  · exact (remainders_foldedChain _).trans (remainders_foldedChain _).symm
  · intro good φ associative plain firsts goods acts rightmost
    refine whole fun d member path inside => ?_
    have along := acts_along operand operator goods acts (left d member) inside
    have operands := fun step member => (along step member).1
    have folded := associative.good_foldAlong (firsts d member) operands
    obtain ⟨back, forth⟩ := applies_of_acts associative (firsts d member) along
    refine ⟨?_, plain _ folded⟩
    cases rightmost with
    | false => exact forth.settles_foldOperands
    | true =>
      rw [← associative.foldBack_eq (firsts d member) operands]
      exact back.settles_foldOperands

end Effects

namespace Parser

/-- A function that joins two texts. -/
def joining : Value := .function (.primitive .add)

/-- Two texts, joined. -/
def joined (v w : Value) : Value :=
  match v, w with
  | .text cs, .text cs' => .text (cs ++ cs')
  | v, _ => v

theorem isAssociativeOn_joined : IsAssociativeOn (fun v => ∃ cs, v = .text cs) joined where
  closed := by
    rintro _ _ ⟨cs, rfl⟩ ⟨cs', rfl⟩
    exact ⟨cs ++ cs', rfl⟩
  assoc := by
    rintro _ _ _ ⟨cs, rfl⟩ ⟨cs', rfl⟩ ⟨cs'', rfl⟩
    exact congrArg Value.text (List.append_assoc cs cs' cs'')

theorem gives_joining {v w : Value} (first : ∃ cs, v = .text cs) (second : ∃ cs, w = .text cs) :
    (Effects.messages Store.initial).Gives joining [v, w] (.ok (joined v w)) := by
  obtain ⟨cs, rfl⟩ := first
  obtain ⟨cs', rfl⟩ := second
  exact .of_apply (.congr (.lift (.ok (joined (.text cs) (.text cs')))) fun _ _ _ => rfl)

theorem appliesBack_pairing {b : Effects} {a : Value} {steps : Steps}
    (operators : ∀ step ∈ steps, step.1.1 = pairing) :
    b.AppliesBack (fun _ v w => .tuple [v, w]) a steps := by
  induction steps generalizing a with
  | nil => trivial
  | cons step steps ih =>
    obtain ⟨first, others⟩ := List.forall_mem_cons.mp operators
    refine ⟨ih others, ?_⟩
    rw [first]
    exact gives_pairing _ _

theorem foldsBothWays_pairing : ∀ d ∈ oneOrTwo (.text ['a', 'b', 'c']),
    (Effects.messages Store.initial).FoldsBothWays (·.extent Store.initial.results)
      (fun _ v w => .tuple [v, w]) oneOrTwo (fun v => [⟨pairing, v⟩]) d := by
  intro d member path inside
  have operators := operators_joinedBy pairing d member path inside
  have plain : (foldBack (fun _ v w => .tuple [v, w]) d.value path).IsPlain ∧
      (foldAlong (fun _ v w => .tuple [v, w]) d.value path).IsPlain := by
    revert d path
    obtain ⟨two, one⟩ := paths_joinedBy pairing
    simp [oneOrTwo, two, one, foldAlong, foldBack, Value.IsPlain]
  exact ⟨⟨appliesBack_pairing operators, plain.1, .of_quiet rfl⟩,
    appliesForth_pairing operators, plain.2, .of_quiet rfl⟩

/-- Operands of one or two characters, with nothing between them: paired up from the right, and
joined. -/
theorem chain_yields_nested_and_joined :
    (Effects.messages Store.initial).Yields
        ((ofShape (.splits [.int 1, .int 2])).chain (.result pairing) true .missing)
        (.text ['a', 'b', 'c']) (.ok
          [⟨.tuple [.text ['a'], .tuple [.text ['b'], .text ['c']]], .text []⟩,
            ⟨.tuple [.text ['a'], .text ['b', 'c']], .text []⟩,
            ⟨.tuple [.text ['a', 'b'], .text ['c']], .text []⟩]) ∧
      ∀ rightmost, (Effects.messages Store.initial).Yields
        ((ofShape (.splits [.int 1, .int 2])).chain (.result joining) rightmost .missing)
        (.text ['a', 'b', 'c']) (.ok
          [⟨.text ['a', 'b', 'c'], .text []⟩, ⟨.text ['a', 'b', 'c'], .text []⟩,
            ⟨.text ['a', 'b', 'c'], .text []⟩]) := by
  have operand : (Effects.messages Store.initial).Enumerates endsOfAbc endsOfAbc
      (ofShape (.splits [.int 1, .int 2])) oneOrTwo := Effects.enumerates_oneOrTwo rfl
  have input : endsOfAbc (.text ['a', 'b', 'c']) := .inl rfl
  have shown {v} : (Effects.messages Store.initial).Shows v := .of_quiet rfl
  have measured : (Effects.messages Store.initial).Measures _ endsOfAbc :=
    Effects.measures_endsOfAbc Store.initial.results
  obtain ⟨paired, -⟩ := Effects.chain_yields_in_both_directions (Store.Logs.refl _) operand
    (enumerates_result (f := pairing) (by nofun)) measured (fun _ _ _ _ => shown)
    (fun _ _ _ _ => shown) (operand.yields _ input) (operand.leaves _ input)
  obtain ⟨-, -, agree⟩ := Effects.chain_yields_in_both_directions (Store.Logs.refl _) operand
    (enumerates_result (f := joining) (by nofun)) measured (fun _ _ _ _ => shown)
    (fun _ _ _ _ => shown) (operand.yields _ input) (operand.leaves _ input)
  obtain ⟨nested, -⟩ := paired _ foldsBothWays_pairing
  have joined := agree _ _ isAssociativeOn_joined (by rintro _ ⟨_, rfl⟩; exact ⟨trivial, shown⟩)
    (by simp [oneOrTwo]) (by rintro _ (rfl | rfl | rfl | rfl) <;> simp [oneOrTwo])
    (by
      intro v _ d member a c first second
      rw [List.mem_singleton.mp member]
      exact gives_joining first second)
  constructor
  · obtain ⟨two, one⟩ := paths_joinedBy pairing
    simp only [foldedChain, oneOrTwo, List.flatMap_cons, List.flatMap_nil, two, one] at nested
    exact nested
  · intro rightmost
    have here := joined rightmost
    obtain ⟨two, one⟩ := paths_joinedBy joining
    simp only [foldedChain, oneOrTwo, List.flatMap_cons, List.flatMap_nil, two, one] at here
    exact here

end Parser

end GrammarKit
