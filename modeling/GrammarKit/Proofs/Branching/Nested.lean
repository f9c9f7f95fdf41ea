import GrammarKit.Proofs.Branching.Repetition
import GrammarKit.Proofs.Effects.Hosting

/-! # Repetition by nesting

Repetition can also be written as a grammar that refers to itself: a value, and then either more of
them or nothing. Where every step consumes something, this grammar has the derivations of the
repetition, in the same order.
-/

namespace GrammarKit

namespace Nested

/-- Succeeds with the list of the value `v` and then the values `vs`. -/
def consed : Term :=
  .apply (.make .result)
    [.apply (.operator .add) [.apply (.operator .list) [.variable "v"], .variable "vs"]]

/-- The whole grammar again or else no values, and then `v` in front of what that has gathered. -/
def others : Term :=
  .apply (.method .andThen)
    [.apply (.method .orElse) [.variable "self", .literal (.list [])],
      .function [⟨"vs", .standard, none⟩] consed]

/-- One value of the repeated parser, and then the others. -/
def body : Term :=
  .apply (.method .andThen) [.variable "p", .function [⟨"v", .standard, none⟩] others]

/-- The function that makes the grammar, given the lazy parser that stands for it. -/
def factory (p : Parser) : Value :=
  .function (.closure [⟨"self", .standard, none⟩] body [("p", .parser p)])

/-- What comes after the other values have been gathered. -/
def consStep (p self : Parser) (v : Value) : Callback :=
  .closure [⟨"vs", .standard, none⟩] consed [("v", v), ("self", .parser self), ("p", .parser p)]

/-- What comes after the first value. -/
def othersStep (p self : Parser) : Callback :=
  .closure [⟨"v", .standard, none⟩] others [("self", .parser self), ("p", .parser p)]

/-- The grammar that the function makes. -/
def definition (p self : Parser) : Parser := p.step (othersStep p self)

theorem factory_returns (p self : Parser) (n : Nat) (s : Store) :
    (evaluator (n + 4)).call (factory p) [.parser self] s =
      .ok (.parser (definition p self)) s := rfl

theorem gives_othersStep {b : Effects} (p self : Parser) (v : Value) :
    b.Gives (.function (othersStep p self)) [v]
      (.ok (.parser ((self.orElse [.list []]).step (consStep p self v)))) :=
  .of_deep 5 fun _ _ => rfl

theorem gives_consStep {b : Effects} (p self : Parser) (v : Value) (vs : List Value) :
    b.Gives (.function (consStep p self v)) [.list vs]
      (.ok (.parser (.result (.list (v :: vs))))) :=
  .of_deep 6 fun _ _ => rfl

end Nested

/-- The derivations of a repetition that gathers values in lists. -/
def repetitions (extent : Value → Nat) (derivations : Value → List Derivation) (x : Value) :
    List Derivation :=
  if derivations x = [] then []
  else (paths extent (steps derivations) x).map fun path =>
    ⟨.list (path.map Prod.fst), remainderAfter x path⟩

variable {extent : Value → Nat} {derivations : Value → List Derivation} {x : Value}

/-- A repetition, or else nothing: a list for every path. -/
theorem repetitions_or_nil :
    (if repetitions extent derivations x = [] then [⟨.list [], x⟩]
      else repetitions extent derivations x) =
    (paths extent (steps derivations) x).map fun path =>
      ⟨.list (path.map Prod.fst), remainderAfter x path⟩ := by
  unfold repetitions
  by_cases none : derivations x = []
  · rw [if_pos none, if_pos rfl, paths_of_eq_nil (by simp [steps, none])]
    rfl
  · rw [if_neg none, if_neg]
    simpa using paths_ne_nil extent (steps derivations) x

/-- Where every step consumes something, a repetition is one step and then a repetition, or
nothing. -/
theorem repetitions_eq_flatMap
    (shorter : ∀ d ∈ derivations x, extent d.remainder < extent x) :
    repetitions extent derivations x = (derivations x).flatMap fun d =>
      (paths extent (steps derivations) d.remainder).map fun path =>
        ⟨.list (d.value :: path.map Prod.fst), remainderAfter d.remainder path⟩ := by
  unfold repetitions
  by_cases none : derivations x = []
  · rw [if_pos none, none]
    rfl
  · rw [if_neg none, paths_of_ne_nil (by simpa [steps] using none), steps, List.flatMap_map,
      List.map_flatMap, List.flatMap_def, List.flatMap_def]
    congr 1
    refine List.map_congr_left fun d member => ?_
    have further : ¬ extent x ≤ extent d.toStep.2 := Nat.not_le_of_lt (shorter d member)
    rw [pathsThrough, if_neg further, List.map_map]
    rfl

namespace Effects

variable {b : Effects} {inputs : Value → Prop} {p self : Parser}

/-- What comes after the first value: that value in front of every list. -/
theorem yields_othersStep (enumerates : b.Enumerates inputs inputs p derivations)
    (values : b.Presents inputs derivations) {d : Derivation} (shown : b.Shows d.value)
    (input : inputs d.remainder)
    (rest : b.Yields self d.remainder (.ok (repetitions extent derivations d.remainder))) :
    b.Yields ((self.orElse [.list []]).step (Nested.consStep p self d.value)) d.remainder
      (.ok ((paths extent (steps derivations) d.remainder).map fun path =>
        ⟨.list (d.value :: path.map Prod.fst), remainderAfter d.remainder path⟩)) := by
  have plain : (Value.list []).IsPlain := trivial
  have empty : b.Shows (.list []) := .of_parts (Value.shownBy_list []) (List.forall_mem_nil _)
  have either := yields_orElse_value plain empty rest
  rw [repetitions_or_nil] at either
  rw [List.map_eq_flatMap]
  refine yields_step_flatMap rfl _ either
    (fun path _ => Nested.gives_consStep p self d.value (path.map Prod.fst)) fun path member => ?_
  have along := enumerates.shows_values values input member
  have listed : b.Shows (.list (d.value :: path.map Prod.fst)) :=
    .of_parts (Value.shownBy_list _)
      (List.forall_mem_cons.mpr ⟨shown, List.forall_mem_map.mpr along⟩)
  exact yields_result listed (enumerates.shows_remainderAfter input member) (by nofun)

/-- The nested grammar has the derivations of a repetition, where every step consumes something. -/
theorem Hosts.yields_nested {address : Nat} (hosts : b.Hosts address (Nested.factory p)
      (Nested.definition p (.ofShape (.lazy address))))
    (enumerates : b.Enumerates inputs inputs p derivations)
    (shorter : ∀ v, inputs v → ∀ d ∈ derivations v, extent d.remainder < extent v)
    (values : b.Presents inputs derivations) (input : inputs x) :
    b.Yields (.ofShape (.lazy address)) x (.ok (repetitions extent derivations x)) := by
  induction size : extent x using Nat.strongRecOn generalizing x with
  | ind n ih =>
    refine hosts.yields_lazy rfl (fun n s => Nested.factory_returns p _ n s) ?_
    have first := enumerates.yields x input
    rw [← List.map_id (derivations x)] at first
    rw [repetitions_eq_flatMap (shorter x input)]
    refine yields_step_flatMap rfl id first (fun d _ => Nested.gives_othersStep p _ d.value)
      fun d member => ?_
    have left := enumerates.leaves x input d member
    exact yields_othersStep enumerates values (values x input d member) left
      (ih _ (size ▸ shorter x input d member) left rfl)

/-- Repetition agrees with the grammar that nests it, derivation by derivation and in order, where
every step consumes something. -/
theorem many_yields_as_nested {address : Nat} (hosts : b.Hosts address (Nested.factory p)
      (Nested.definition p (.ofShape (.lazy address))))
    (enumerates : b.Enumerates inputs inputs p derivations) (measured : b.Measures extent inputs)
    (shorter : ∀ v, inputs v → ∀ d ∈ derivations v, extent d.remainder < extent v)
    (values : b.Presents inputs derivations) (input : inputs x) :
    b.Yields (p.many .sequence) x (.ok (repetitions extent derivations x)) ∧
      b.Yields (.ofShape (.lazy address)) x (.ok (repetitions extent derivations x)) := by
  refine ⟨?_, hosts.yields_nested enumerates shorter values input⟩
  have many := enumerates.yields_many measured (.strategy .sequence) input
  rw [repeated_sequence, ← apply_ite] at many
  exact many

end Effects

namespace Nested

/-- One or two characters. -/
def oneOrTwo : Parser := .ofShape (.splits [.int 1, .int 2])

/-- Where the nested repetition of them has not been used yet. -/
def store : Store := Store.initial.addCell (some (factory oneOrTwo))

/-- The lazy parser for that. -/
def repetition : Parser := .ofShape (.lazy Store.initial.cells.size)

theorem repetitions_oneOrTwo :
    repetitions (·.extent Store.initial.results) Parser.oneOrTwo (.text ['a', 'b', 'c']) =
      [⟨.list [.text ['a'], .text ['b'], .text ['c']], .text []⟩,
        ⟨.list [.text ['a'], .text ['b', 'c']], .text []⟩,
        ⟨.list [.text ['a', 'b'], .text ['c']], .text []⟩] := by
  have nothing : paths (·.extent Store.initial.results) (steps Parser.oneOrTwo) (.text []) = [[]] :=
    paths_of_eq_nil rfl
  have one : paths (·.extent Store.initial.results) (steps Parser.oneOrTwo) (.text ['c']) =
      [[(.text ['c'], .text [])]] := by
    rw [paths_of_ne_nil (by simp [steps, Parser.oneOrTwo])]
    simp [steps, Parser.oneOrTwo, Derivation.toStep, pathsThrough, nothing]
  have two : paths (·.extent Store.initial.results) (steps Parser.oneOrTwo) (.text ['b', 'c']) =
      [[(.text ['b'], .text ['c']), (.text ['c'], .text [])], [(.text ['b', 'c'], .text [])]] := by
    rw [paths_of_ne_nil (by simp [steps, Parser.oneOrTwo])]
    simp [steps, Parser.oneOrTwo, Derivation.toStep, pathsThrough, nothing, one]
  rw [repetitions_eq_flatMap (by simp [Parser.oneOrTwo])]
  simp [Parser.oneOrTwo, one, two, remainderAfter]

/-- One or two characters at a time: three ways to use up a text. -/
theorem many_yields_as_repetition :
    let b := Effects.hosting store Store.initial.cells.size (definition oneOrTwo repetition)
    let found : List Derivation :=
      [⟨.list [.text ['a'], .text ['b'], .text ['c']], .text []⟩,
        ⟨.list [.text ['a'], .text ['b', 'c']], .text []⟩,
        ⟨.list [.text ['a', 'b'], .text ['c']], .text []⟩]
    b.Yields (oneOrTwo.many .sequence) (.text ['a', 'b', 'c']) (.ok found) ∧
      b.Yields repetition (.text ['a', 'b', 'c']) (.ok found) := by
  intro b found
  have waiting : store.cellAt Store.initial.cells.size = ⟨some (factory oneOrTwo), none⟩ := by
    rw [store, Store.cellAt_addCell, if_pos rfl]
  have whole := Effects.many_yields_as_nested (Effects.hosts_hosting (.inl waiting))
    (Effects.enumerates_oneOrTwo rfl) (Effects.measures_endsOfAbc Store.initial.results)
    (by rintro v (rfl | rfl | rfl | rfl) <;> simp [Parser.oneOrTwo])
    (fun _ _ _ _ => .of_quiet rfl) (x := .text ['a', 'b', 'c']) (.inl rfl)
  rwa [repetitions_oneOrTwo] at whole

end Nested

end GrammarKit
