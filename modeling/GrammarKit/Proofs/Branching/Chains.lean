import GrammarKit.Proofs.Branching.Operators

/-! # Chains with several derivations

A left associative chain of operands and operators that may all be ambiguous. Every path of steps
from a first operand on is one derivation of the chain, and its value is folded along the path.
-/

namespace GrammarKit

/-- Without a first operand, and only then, there is no derivation. -/
theorem foldedChain_eq_nil_iff {extent : Value → Nat} {fold : Value → Steps → Value}
    {operands operators : Value → List Derivation} {starts : List Derivation} :
    foldedChain extent fold operands operators starts = [] ↔ starts = [] := by
  cases starts with
  | nil => exact ⟨fun _ => rfl, fun _ => rfl⟩
  | cons d rest =>
    have after := paths_ne_nil extent (chainSteps operands operators) d.remainder
    simp [foldedChain, after]

namespace Effects

variable {b : Effects} {extent : Value → Nat} {inputs between : Value → Prop} {p op : Parser}
  {x : Value} {operands operators : Value → List Derivation} {starts : List Derivation}
  {s : Store}

/-- Whether the operators give what `apply` says along all paths from what is left of a first
operand, and plain values in the end. -/
def FoldsForth (b : Effects) (extent : Value → Nat) (apply : Value → Value → Value → Value)
    (operands operators : Value → List Derivation) (d : Derivation) : Prop :=
  ∀ path ∈ paths extent (chainSteps operands operators) d.remainder,
    b.AppliesForth apply d.value path ∧
      (foldAlong apply d.value path).IsPlain ∧ b.Shows (foldAlong apply d.value path)

/-- A left associative chain has one derivation for each derivation of its first operand and each
path of operators and operands after it, and the paths are the maximal ones in lexicographic order
of the choices made. With a plain value to fall back on, it has the same derivations where there is
a first operand, and else that value alone, with nothing consumed. -/
theorem chain_yields_paths (started : b.start s) (apply : Value → Value → Value → Value)
    (operand : b.Enumerates between inputs p operands)
    (operator : b.Enumerates inputs between op operators)
    (measured : b.Measures extent inputs) (functions : b.Presents inputs operators)
    (values : b.Presents between operands) (first : b.Yields p x (.ok starts))
    (left : ∀ d ∈ starts, inputs d.remainder)
    (folds : ∀ d ∈ starts, b.FoldsForth extent apply operands operators d) :
    (b.Yields (p.chain op false .missing) x
        (.ok (foldedChain extent (foldAlong apply) operands operators starts)) ∧
      ∀ fallback : Value, fallback.IsPlain → b.Shows fallback →
        b.Yields (p.chain op false fallback) x
          (.ok (if starts = [] then [⟨fallback, x⟩]
            else foldedChain extent (foldAlong apply) operands operators starts))) ∧
    ∀ v, ListsMaximal extent (chainSteps operands operators) v
      (paths extent (chainSteps operands operators) v) := by
  have whole : b.Yields (p.chain op false .missing) x
      (.ok (foldedChain extent (foldAlong apply) operands operators starts)) := by
    refine yields_foldedChain started operand operator measured functions values first left ?_
    intro d member path inside
    obtain ⟨applies, plain⟩ := folds d member path inside
    exact ⟨applies.settles_foldOperands, plain⟩
  refine ⟨⟨whole, fun fallback plain shown => ?_⟩, listsMaximal_paths extent _⟩
  have alternative : p.chain op false fallback =
      (p.chain op false .missing).orElse [fallback] := by
    cases fallback with
    | missing => exact plain.elim
    | _ => rfl
  have either := yields_orElse_value plain shown whole
  simp only [foldedChain_eq_nil_iff] at either
  rwa [alternative]

end Effects

namespace Parser

/-- A function of two values that pairs them up. -/
def pairing : Value :=
  .function (.closure [⟨"a", .standard, none⟩, ⟨"b", .standard, none⟩]
    (.apply (.operator .tuple) [.variable "a", .variable "b"]) [])

theorem gives_pairing {b : Effects} (v w : Value) : b.Gives pairing [v, w] (.ok (.tuple [v, w])) :=
  .of_deep 4 fun _ _ => rfl

theorem enumerates_result {f : Value} (given : f ≠ .missing) :
    (Effects.messages Store.initial).Enumerates endsOfAbc endsOfAbc (result f)
      fun v => [⟨f, v⟩] where
  yields _ _ := Effects.yields_result (.of_quiet rfl) (.of_quiet rfl) given
  leaves _ input := List.forall_mem_singleton.mpr input

theorem appliesForth_pairing {b : Effects} {a : Value} {steps : Steps}
    (operators : ∀ step ∈ steps, step.1.1 = pairing) :
    b.AppliesForth (fun _ v w => .tuple [v, w]) a steps := by
  induction steps generalizing a with
  | nil => trivial
  | cons step steps ih =>
    obtain ⟨first, others⟩ := List.forall_mem_cons.mp operators
    refine ⟨?_, ih others⟩
    rw [first]
    exact gives_pairing a step.1.2

theorem paths_joinedBy (f : Value) :
    paths (·.extent Store.initial.results) (chainSteps oneOrTwo fun v => [⟨f, v⟩])
        (.text ['b', 'c']) =
      [[((f, .text ['b']), .text ['c']), ((f, .text ['c']), .text [])],
        [((f, .text ['b', 'c']), .text [])]] ∧
    paths (·.extent Store.initial.results) (chainSteps oneOrTwo fun v => [⟨f, v⟩])
        (.text ['c']) = [[((f, .text ['c']), .text [])]] := by
  have nothing : paths (·.extent Store.initial.results)
      (chainSteps oneOrTwo fun v => [⟨f, v⟩]) (.text []) = [[]] := paths_of_eq_nil rfl
  have one : paths (·.extent Store.initial.results) (chainSteps oneOrTwo fun v => [⟨f, v⟩])
      (.text ['c']) = [[((f, .text ['c']), .text [])]] := by
    rw [paths_of_ne_nil (by simp [chainSteps, oneOrTwo])]
    simp [chainSteps, oneOrTwo, pathsThrough, nothing]
  refine ⟨?_, one⟩
  rw [paths_of_ne_nil (by simp [chainSteps, oneOrTwo])]
  simp [chainSteps, oneOrTwo, pathsThrough, nothing, one]

/-- Operators that pair up what is left of the first one or two characters are all the same
function. -/
theorem operators_joinedBy (f : Value) : ∀ d ∈ oneOrTwo (.text ['a', 'b', 'c']),
    ∀ path ∈ paths (·.extent Store.initial.results) (chainSteps oneOrTwo fun v => [⟨f, v⟩])
      d.remainder, ∀ step ∈ path, step.1.1 = f := by
  obtain ⟨two, one⟩ := paths_joinedBy f
  simp only [oneOrTwo, two, one, List.forall_mem_cons, List.not_mem_nil, false_implies,
    implies_true, and_self]

/-- Operands of one or two characters, with nothing between them: three ways to read a text. -/
theorem chain_yields_three_pairings :
    (Effects.messages Store.initial).Yields
      ((ofShape (.splits [.int 1, .int 2])).chain (.result pairing) false .missing)
      (.text ['a', 'b', 'c']) (.ok
        [⟨.tuple [.tuple [.text ['a'], .text ['b']], .text ['c']], .text []⟩,
          ⟨.tuple [.text ['a'], .text ['b', 'c']], .text []⟩,
          ⟨.tuple [.text ['a', 'b'], .text ['c']], .text []⟩]) := by
  have operand : (Effects.messages Store.initial).Enumerates endsOfAbc endsOfAbc
      (ofShape (.splits [.int 1, .int 2])) oneOrTwo := Effects.enumerates_oneOrTwo rfl
  have input : endsOfAbc (.text ['a', 'b', 'c']) := .inl rfl
  have shown {v} : (Effects.messages Store.initial).Shows v := .of_quiet rfl
  obtain ⟨two, one⟩ := paths_joinedBy pairing
  have plain : ∀ d ∈ oneOrTwo (.text ['a', 'b', 'c']), ∀ path ∈
      paths (·.extent Store.initial.results) (chainSteps oneOrTwo fun v => [⟨pairing, v⟩])
        d.remainder, (foldAlong (fun _ v w => .tuple [v, w]) d.value path).IsPlain := by
    simp [oneOrTwo, two, one, foldAlong, Value.IsPlain]
  obtain ⟨⟨whole, -⟩, -⟩ := Effects.chain_yields_paths (Store.Logs.refl _)
    (fun _ v w => .tuple [v, w]) operand (enumerates_result (f := pairing) (by simp [pairing]))
    (Effects.measures_endsOfAbc Store.initial.results) (fun _ _ _ _ => shown)
    (fun _ _ _ _ => shown) (operand.yields _ input) (operand.leaves _ input)
    fun d member path inside => ⟨appliesForth_pairing (operators_joinedBy _ d member path inside),
      plain d member path inside, shown⟩
  simp only [foldedChain, oneOrTwo, List.flatMap_cons, List.flatMap_nil, two, one] at whole
  exact whole

end Parser

end GrammarKit
