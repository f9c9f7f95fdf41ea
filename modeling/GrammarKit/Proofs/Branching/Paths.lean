import GrammarKit.Evaluation.Repetition
import GrammarKit.Proofs.Eval

/-! # Paths of repetition

A parser that branches is repeated along many paths. `paths` lists them, depth first: every path
goes on as long as there is a step and stops where there is none, or right after a step that left
no less than there was. Nothing is asked of what is parsed but an extent, since only lengths are
compared.
-/

namespace GrammarKit

/-- The number of items of a value; zero for a value that has no length. -/
def Value.extent (results : Results) (v : Value) : Nat :=
  match v.length results with
  | .ok n => n
  | .error _ => 0

@[simp] theorem Value.extent_text (results : Results) (cs : List Char) :
    (text cs).extent results = cs.length := rfl

section

variable {σ τ : Type} (extent : Value → Nat) (next : Value → List (σ × Value))

/-- All maximal paths from `v` on, as the steps that they take, in lexicographic order of the
choices made: `next` gives the steps at a remainder, each with what it leaves. -/
def paths (v : Value) : List (List (σ × Value)) :=
  if (next v).isEmpty then [[]]
  else (next v).flatMap fun step =>
    if extent v ≤ extent step.2 then [[step]] else (paths step.2).map (step :: ·)
termination_by extent v

/-- The paths that begin with a given step. -/
def pathsThrough (v : Value) (step : σ × Value) : List (List (σ × Value)) :=
  if extent v ≤ extent step.2 then [[step]] else (paths extent next step.2).map (step :: ·)

/-- What is left at the end of a path. -/
def remainderAfter (v : Value) : List (σ × Value) → Value
  | [] => v
  | step :: rest => remainderAfter step.2 rest

/-- Whether a path from `v` on can go no further: there is no step where it ends, or its last step,
and no other one, left no less than there was. -/
inductive IsMaximal : Value → List (σ × Value) → Prop where
  | stop {v : Value} : next v = [] → IsMaximal v []
  | stuck {v : Value} {step : σ × Value} :
    step ∈ next v → extent v ≤ extent step.2 → IsMaximal v [step]
  | further {v : Value} {step : σ × Value} {rest : List (σ × Value)} :
    step ∈ next v → extent step.2 < extent v → IsMaximal step.2 rest → IsMaximal v (step :: rest)

variable {extent next}

theorem paths_of_eq_nil {v : Value} (none : next v = []) : paths extent next v = [[]] := by
  rw [paths, none]
  rfl

theorem paths_of_ne_nil {v : Value} (some_ : next v ≠ []) :
    paths extent next v = (next v).flatMap (pathsThrough extent next v) := by
  rw [paths, if_neg (by simpa using some_)]
  rfl

theorem mem_pathsThrough_iff {v : Value} {step : σ × Value} {path : List (σ × Value)} :
    path ∈ pathsThrough extent next v step ↔
      (extent v ≤ extent step.2 ∧ path = [step]) ∨
        ∃ rest ∈ paths extent next step.2, extent step.2 < extent v ∧ path = step :: rest := by
  unfold pathsThrough
  split
  · next stuck =>
    simp only [List.mem_singleton, stuck, true_and, Nat.not_lt_of_le stuck, false_and, and_false,
      exists_false, or_false]
  · next further =>
    have shorter := Nat.lt_of_not_le further
    simp only [List.mem_map, further, false_and, false_or, shorter, true_and, eq_comm]

/-- The paths are the maximal ones. -/
theorem mem_paths_iff (v : Value) (path : List (σ × Value)) :
    path ∈ paths extent next v ↔ IsMaximal extent next v path := by
  induction size : extent v using Nat.strongRecOn generalizing v path with
  | ind n ih =>
    by_cases none : next v = []
    · rw [paths_of_eq_nil none, List.mem_singleton]
      constructor
      · rintro rfl
        exact .stop none
      · intro maximal
        cases maximal with
        | stop _ => rfl
        | stuck member _ => simp [none] at member
        | further member _ _ => simp [none] at member
    · rw [paths_of_ne_nil none, List.mem_flatMap]
      simp only [mem_pathsThrough_iff]
      constructor
      · rintro ⟨step, member, ⟨stuck, rfl⟩ | ⟨rest, inside, shorter, rfl⟩⟩
        · exact .stuck member stuck
        · exact .further member shorter ((ih _ (size ▸ shorter) _ rest rfl).mp inside)
      · intro maximal
        cases maximal with
        | stop here => exact absurd here none
        | stuck member stuck => exact ⟨_, member, .inl ⟨stuck, rfl⟩⟩
        | further member shorter rest =>
          exact ⟨_, member, .inr ⟨_, (ih _ (size ▸ shorter) _ _ rfl).mpr rest, shorter, rfl⟩⟩

/-- There is always a path. -/
theorem paths_ne_nil (extent : Value → Nat) (next : Value → List (σ × Value)) (v : Value) :
    paths extent next v ≠ [] := by
  induction size : extent v using Nat.strongRecOn generalizing v with
  | ind n ih =>
    cases steps : next v with
    | nil => simp [paths_of_eq_nil steps]
    | cons step others =>
      have through : pathsThrough extent next v step ≠ [] := by
        unfold pathsThrough
        split
        · simp
        · next further =>
          have shorter := Nat.lt_of_not_le further
          simpa using ih _ (size ▸ shorter) step.2 rfl
      rw [paths_of_ne_nil (by simp [steps]), steps, List.flatMap_cons]
      exact List.append_ne_nil_of_left_ne_nil through _

/-- What all steps preserve holds of what is left at the end of every path. -/
theorem IsMaximal.holds_remainderAfter {inputs : Value → Prop}
    (closed : ∀ v, inputs v → ∀ step ∈ next v, inputs step.2) {v : Value}
    {path : List (σ × Value)} (maximal : IsMaximal extent next v path) (input : inputs v) :
    inputs (remainderAfter v path) := by
  induction maximal with
  | stop _ => exact input
  | stuck member _ => exact closed _ input _ member
  | further member _ _ ih => exact ih (closed _ input _ member)

/-- What holds of all steps holds of those on every path. -/
theorem IsMaximal.forall_mem {inputs : Value → Prop} {P : σ → Prop}
    (closed : ∀ v, inputs v → ∀ step ∈ next v, inputs step.2)
    (holds : ∀ v, inputs v → ∀ step ∈ next v, P step.1) {v : Value} {path : List (σ × Value)}
    (maximal : IsMaximal extent next v path) (input : inputs v) : ∀ step ∈ path, P step.1 := by
  induction maximal with
  | stop _ => exact List.forall_mem_nil _
  | stuck member _ => exact List.forall_mem_singleton.mpr (holds _ input _ member)
  | further member _ _ ih =>
    exact List.forall_mem_cons.mpr ⟨holds _ input _ member, ih (closed _ input _ member)⟩

/-- Where the steps are sorted, the paths are sorted by the first choice in which they differ. -/
theorem paths_pairwise_lex {lt : σ → σ → Prop}
    (sorted : ∀ v, (next v).Pairwise fun first second => lt first.1 second.1) (v : Value) :
    (paths extent next v).Pairwise fun first second =>
      List.Lex lt (first.map Prod.fst) (second.map Prod.fst) := by
  induction size : extent v using Nat.strongRecOn generalizing v with
  | ind n ih =>
    by_cases none : next v = []
    · rw [paths_of_eq_nil none]
      exact List.pairwise_singleton _ _
    · rw [paths_of_ne_nil none, List.pairwise_flatMap]
      constructor
      · intro step _
        unfold pathsThrough
        split
        · exact List.pairwise_singleton _ _
        · next further =>
          have inside := ih _ (size ▸ Nat.lt_of_not_le further) step.2 rfl
          exact List.pairwise_map.mpr (inside.imp .cons)
      · refine (sorted v).imp fun before path member path' member' => ?_
        rcases mem_pathsThrough_iff.mp member with ⟨_, rfl⟩ | ⟨_, _, _, rfl⟩ <;>
          rcases mem_pathsThrough_iff.mp member' with ⟨_, rfl⟩ | ⟨_, _, _, rfl⟩ <;>
            exact .rel before

/-- Renaming the steps renames them on every path. -/
theorem paths_map (f : σ → τ) (v : Value) :
    paths extent (fun w => (next w).map (Prod.map f id)) v =
      (paths extent next v).map (List.map (Prod.map f id)) := by
  induction size : extent v using Nat.strongRecOn generalizing v with
  | ind n ih =>
    by_cases none : next v = []
    · rw [paths_of_eq_nil none, paths_of_eq_nil (by simp [none])]
      rfl
    · rw [paths_of_ne_nil none, paths_of_ne_nil (by simpa using none), List.flatMap_map,
        List.map_flatMap]
      congr 1
      funext step
      simp only [pathsThrough, Prod.map_snd, id_eq]
      split
      · rfl
      · next further =>
        have shorter := Nat.lt_of_not_le further
        rw [ih _ (size ▸ shorter) step.2 rfl, List.map_map, List.map_map]
        rfl

/-- The steps at a remainder, each with its number among them. -/
def numbered (next : Value → List (σ × Value)) (v : Value) : List ((Nat × σ) × Value) :=
  (next v).zipIdx.map fun (step, number) => ((number, step.1), step.2)

/-- Whether `found` lists the maximal paths from `v` on, each of them once, in lexicographic order
of the choices made: a choice is the number of the step that is picked. -/
def ListsMaximal (extent : Value → Nat) (next : Value → List (σ × Value)) (v : Value)
    (found : List (List (σ × Value))) : Prop :=
  ∃ choices : List (List ((Nat × σ) × Value)),
    found = choices.map (List.map (Prod.map Prod.snd id)) ∧
      (∀ path, path ∈ choices ↔ IsMaximal extent (numbered next) v path) ∧
      choices.Pairwise fun first second =>
        List.Lex (fun a c => a.1 < c.1) (first.map Prod.fst) (second.map Prod.fst)

theorem map_numbered (v : Value) : (numbered next v).map (Prod.map Prod.snd id) = next v := by
  have steps : (next v).zipIdx.map Prod.fst = next v := List.zipIdx_map_fst 0 (next v)
  rw [numbered, List.map_map]
  exact steps

theorem pairwise_numbered (v : Value) :
    (numbered next v).Pairwise fun first second => first.1.1 < second.1.1 := by
  rw [numbered, List.pairwise_map]
  have numbers : ((next v).zipIdx.map Prod.snd).Pairwise (· < ·) := by
    rw [List.zipIdx_map_snd]
    exact List.pairwise_lt_range'
  exact List.pairwise_map.mp numbers

/-- The paths are the maximal ones, in the order of the choices made. -/
theorem listsMaximal_paths (extent : Value → Nat) (next : Value → List (σ × Value)) (v : Value) :
    ListsMaximal extent next v (paths extent next v) := by
  refine ⟨paths extent (numbered next) v, ?_, mem_paths_iff v, paths_pairwise_lex ?_ v⟩
  · rw [← paths_map]
    exact congrArg (paths extent · v) (funext map_numbered).symm
  · exact pairwise_numbered

/-- Renaming the steps changes nothing about what is left. -/
theorem remainderAfter_map (f : σ → τ) (v : Value) (path : List (σ × Value)) :
    remainderAfter v (path.map (Prod.map f id)) = remainderAfter v path := by
  induction path generalizing v with
  | nil => rfl
  | cons step path ih => exact ih step.2

end

/-! ## Derivations at the ends of paths -/

/-- A derivation as a step of a repetition: its value, and what it leaves. -/
def Derivation.toStep (d : Derivation) : Value × Value := (d.value, d.remainder)

/-- The steps of a repetition. -/
def steps (derivations : Value → List Derivation) (v : Value) : List (Value × Value) :=
  (derivations v).map Derivation.toStep

/-- The derivation at the end of a path from `v` on, after `values` had been gathered. -/
def endOf (finish : List Value → Except Error Value) (values : List Value) (v : Value)
    (path : List (Value × Value)) : Except Error Derivation := do
  return ⟨← finish (values ++ path.map Prod.fst), remainderAfter v path⟩

theorem endOf_cons (finish : List Value → Except Error Value) (values : List Value) (v : Value)
    (step : Value × Value) (path : List (Value × Value)) :
    endOf finish values v (step :: path) = endOf finish (values ++ [step.1]) step.2 path := by
  simp only [endOf, remainderAfter, List.map_cons, List.append_assoc, List.singleton_append]

/-- The derivations at the ends of all paths. -/
def repeated (extent : Value → Nat) (derivations : Value → List Derivation) (accumulate : Value)
    (x : Value) : Except Error (List Derivation) :=
  (paths extent (steps derivations) x).mapM (endOf (accumulateValues accumulate) [] x)

/-- In a list, the values of a path are gathered as they are. -/
theorem repeated_sequence {extent : Value → Nat} {derivations : Value → List Derivation}
    (x : Value) : repeated extent derivations (.strategy .sequence) x =
      .ok ((paths extent (steps derivations) x).map fun path =>
        ⟨.list (path.map Prod.fst), remainderAfter x path⟩) :=
  Except.mapM_ok _ _

end GrammarKit
