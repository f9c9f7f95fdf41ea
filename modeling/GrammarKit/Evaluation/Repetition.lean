import GrammarKit.Value.Display

/-!
# Repetition

One or more repetitions of a parser, without nesting: the paths that are still open are kept on an
agenda, and the one on top is taken further. Paths are explored depth first, in the order of the
derivations of the repeated parser. A path ends where the parser fails, or right after a step that
consumed nothing.

Every path carries its height: zero once it has ended, else one more than the items it had left
when it was opened. A step replaces the path on top by paths that are lower, so the agenda runs
empty after finitely many steps, however many paths a step opens. Only remainders that grow while
they are waiting, as result lists in the store can, could break this; steps on those use up a
budget.
-/

namespace GrammarKit

/-- What repeated values amount to: a list of them, or, if texts are to be concatenated, one text;
`accumulate` is the strategy. -/
def accumulateValues (accumulate : Value) (values : List Value) : Except Error Value :=
  match accumulate with
  | .strategy .sequence => .ok (.list values)
  | _ => concatenate values
where
  /-- The texts in one, if all of the values are texts. -/
  concatenate : List Value → Except Error Value
    | [] => .ok (.text [])
    | .text cs :: vs => do
      match ← concatenate vs with
      | .text rest => return .text (cs ++ rest)
      | v => return v
    | v :: _ => .error (.textNeeded v.kindName)

/-- A sequence of repetitions: the values, latest first, what they left of the input, and the
height. -/
structure Path where
  values : List Value
  remainder : Value
  height : Nat

namespace Path

/-- The path before the first repetition. -/
def start (results : Results) (input : Value) : Path :=
  ⟨[], input, (match input.length results with | .ok n => n | .error _ => 0) + 1⟩

/-- The path one repetition further. It has ended if nothing was consumed. -/
def extend (results : Results) (path : Path) (d : Derivation) : Except Error Path := do
  let left ← d.remainder.length results
  let before ← path.remainder.length results
  return ⟨d.value :: path.values, d.remainder, if before ≤ left then 0 else left + 1⟩

/-- The paths that several derivations open, in their order. -/
def extendAll (results : Results) (path : Path) (ds : List Derivation) :
    Except Error (List Path) := ds.mapM (path.extend results)

/-- An agenda comes before another one if it replaces its topmost path by lower ones. -/
def Replaces (after before : List Path) : Prop :=
  ∃ path rest lower, before = path :: rest ∧ after = lower ++ rest ∧
    ∀ p ∈ lower, p.height < path.height

private theorem replaces_acc_append {n : Nat}
    (cons : ∀ path : Path, path.height < n →
      ∀ rest, Acc Replaces rest → Acc Replaces (path :: rest))
    (lower : List Path) (low : ∀ p ∈ lower, p.height < n) (rest : List Path)
    (accessible : Acc Replaces rest) : Acc Replaces (lower ++ rest) := by
  induction lower with
  | nil => exact accessible
  | cons path lower ih =>
    have tail := ih fun p member => low p (List.mem_cons_of_mem _ member)
    exact cons path (low path List.mem_cons_self) _ tail

private theorem replaces_acc_cons (n : Nat) : ∀ path : Path, path.height < n →
    ∀ rest, Acc Replaces rest → Acc Replaces (path :: rest) := by
  induction n with
  | zero => intro path impossible; exact absurd impossible (Nat.not_lt_zero _)
  | succ n ih =>
    intro path bound rest accessible
    constructor
    rintro after ⟨top, others, lower, same, rfl, low⟩
    obtain ⟨rfl, rfl⟩ := List.cons.inj same
    exact replaces_acc_append ih lower
      (fun p member => Nat.lt_of_lt_of_le (low p member) (Nat.le_of_lt_succ bound)) rest accessible

/-- No agenda can be replaced for ever. -/
theorem replaces_wellFounded : WellFounded Replaces := by
  constructor
  intro agenda
  induction agenda with
  | nil => exact ⟨_, fun _ ⟨_, _, _, same, _⟩ => nomatch same⟩
  | cons path rest ih => exact replaces_acc_cons _ path (Nat.lt_succ_self _) rest ih

/-- A path may be replaced by none. -/
theorem replaces_tail (path : Path) (rest : List Path) : Replaces rest (path :: rest) :=
  ⟨path, rest, [], rfl, rfl, fun _ member => nomatch member⟩

instance agendaOrder : WellFoundedRelation (List Path) := ⟨Replaces, replaces_wellFounded⟩

end Path

/-- Takes the topmost path of the agenda further until no path is left. `out` holds the derivations
found so far, latest first. -/
def explore (step : Value → Eval (List Derivation)) (finish : List Value → Except Error Value)
    (budget : Nat) (agenda : List Path) (out : List Derivation) : Eval (List Derivation) :=
  match agenda with
  | [] => pure out.reverse
  | path :: rest =>
    if path.height = 0 then do
      let value ← finish path.values.reverse
      explore step finish budget rest (⟨value, path.remainder⟩ :: out)
    else do
      let found ← step path.remainder
      if found.isEmpty then
        if path.values.isEmpty then explore step finish budget rest out
        else
          let value ← finish path.values.reverse
          explore step finish budget rest (⟨value, path.remainder⟩ :: out)
      else
        let results ← Store.readResults
        let opened ← path.extendAll results found
        if _low : ∀ p ∈ opened, p.height < path.height then
          explore step finish budget (opened ++ rest) out
        else
          match budget with
          | 0 => throw .outOfFuel
          | budget + 1 => explore step finish budget (opened ++ rest) out
termination_by (budget, agenda)
decreasing_by
  · exact Prod.Lex.right _ (Path.replaces_tail path rest)
  · exact Prod.Lex.right _ (Path.replaces_tail path rest)
  · exact Prod.Lex.right _ (Path.replaces_tail path rest)
  · exact Prod.Lex.right _ ⟨path, rest, opened, rfl, rfl, _low⟩
  · exact Prod.Lex.left _ _ (Nat.lt_succ_self _)

/-- One or more repetitions of a parser on an input. -/
def repeatParser (step : Value → Eval (List Derivation)) (accumulate : Value) (budget : Nat)
    (input : Value) : Eval (List Derivation) := do
  let results ← Store.readResults
  explore step (accumulateValues accumulate) budget [Path.start results input] []

end GrammarKit
