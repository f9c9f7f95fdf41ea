import GrammarKit.Proofs.Branching.Paths
import GrammarKit.Proofs.Runs

/-! # Repetition of a parser with several derivations

The agenda of `explore` goes through exactly the paths that there are, in their order, and each of
them ends with what its values amount to. That holds whatever the effects are that evaluations may
have, as long as these leave the lengths of the inputs alone.
-/

namespace GrammarKit

namespace Effects

/-- Whether the inputs have the same lengths throughout, those that `extent` says. -/
def Measures (b : Effects) (extent : Value → Nat) (inputs : Value → Prop) : Prop :=
  ∀ v, inputs v → ∀ s, b.start s → v.length s.results = .ok (extent v)

/-- Whether a parser has exactly the derivations `derivations` on each of some inputs, and leaves
only what is in `outputs`. -/
structure Enumerates (b : Effects) (inputs outputs : Value → Prop) (p : Parser)
    (derivations : Value → List Derivation) : Prop where
  yields : ∀ v, inputs v → b.Yields p v (.ok (derivations v))
  leaves : ∀ v, inputs v → ∀ d ∈ derivations v, outputs d.remainder

/-- What is parsed is shown, should messages be recorded. -/
def Presents (b : Effects) (inputs : Value → Prop) (derivations : Value → List Derivation) :
    Prop :=
  ∀ v, inputs v → ∀ d ∈ derivations v, b.Shows d.value

end Effects

/-! ## The agenda goes through the paths -/

/-- The exploration of an agenda. -/
def exploring (q : Parser) (finish : List Value → Except Error Value) (agenda : List Path)
    (out : List Derivation) (ev : Evaluator) : Eval (List Derivation) :=
  explore (ev.parse q) finish ev.fuel agenda out

section

variable {b : Effects} {extent : Value → Nat} {inputs : Value → Prop} {q : Parser}
  {derivations : Value → List Derivation} {finish : List Value → Except Error Value}
  {r : List Derivation → Except Error (List Derivation)} {rest : List Path}
  {out ds : List Derivation}

/-! What the paths below the topmost one amount to is `r`, a function of the derivations that the
topmost one has led to. -/

/-- A path that has ended. -/
theorem settles_exploring_ended (path : Path) (ended : path.height = 0)
    (others : ∀ d, b.Settles (exploring q finish rest (d :: out)) (r [d])) :
    b.Settles (exploring q finish (path :: rest) out)
      (endOf finish path.values.reverse path.remainder [] >>= fun d => r [d]) := by
  have gathered : b.Settles (fun _ => (liftM (finish path.values.reverse) : Eval Value))
      (finish path.values.reverse) := .lift _
  have whole := gathered.bind_all fun value _ => others ⟨value, path.remainder⟩
  rw [endOf, List.map_nil, List.append_nil, bind_assoc]
  simp only [pure_bind]
  refine whole.congr fun n s _ => ?_
  rw [exploring, explore_ended path rest out ended]
  rfl

/-- Where the parser fails, a path ends, too. -/
theorem settles_exploring_stop (path : Path) (opened : path.height ≠ 0) (further : path.values ≠ [])
    (here : b.Settles (fun ev => ev.parse q path.remainder) (.ok []))
    (others : ∀ d, b.Settles (exploring q finish rest (d :: out)) (r [d])) :
    b.Settles (exploring q finish (path :: rest) out)
      (endOf finish path.values.reverse path.remainder [] >>= fun d => r [d]) := by
  have ended := settles_exploring_ended ⟨path.values, path.remainder, 0⟩ rfl others
  refine here.after ended fun n s t _ found => ?_
  rw [exploring, explore, if_neg opened, Eval.bind_of_eq_ok found, if_pos List.isEmpty_nil,
    if_neg (by simpa using further)]
  exact (congrFun (explore_ended ⟨path.values, path.remainder, 0⟩ rest out rfl) t).symm

/-- Where the parser fails, a path without values leads to nothing. -/
theorem settles_exploring_none (path : Path) (opened : path.height ≠ 0) (first : path.values = [])
    (here : b.Settles (fun ev => ev.parse q path.remainder) (.ok []))
    {o : Except Error (List Derivation)} (others : b.Settles (exploring q finish rest out) o) :
    b.Settles (exploring q finish (path :: rest) out) o := by
  refine here.after others fun n s t _ found => ?_
  rw [exploring, explore, if_neg opened, Eval.bind_of_eq_ok found, if_pos List.isEmpty_nil,
    if_pos (by simpa using first)]
  rfl

/-- Where the parser succeeds, the path is replaced by those that it opens. -/
theorem settles_exploring_onward (measured : b.Measures extent inputs) (path : Path)
    (height : path.height = extent path.remainder + 1) (some_ : ds ≠ [])
    (here : b.Settles (fun ev => ev.parse q path.remainder) (.ok ds))
    (before : inputs path.remainder) (left : ∀ d ∈ ds, inputs d.remainder)
    {o : Except Error (List Derivation)}
    (others : b.Settles (exploring q finish (ds.map (path.onward extent) ++ rest) out) o) :
    b.Settles (exploring q finish (path :: rest) out) o := by
  refine here.after others fun n s t between found => ?_
  have opened : path.extendAll t.results ds = .ok (ds.map (path.onward extent)) :=
    Path.extendAll_eq_map_onward (measured _ before t between)
      fun d member => measured _ (left d member) t between
  rw [exploring, explore, if_neg (by omega), Eval.bind_of_eq_ok found,
    if_neg (by simpa using some_), Eval.readResults_bind, Eval.lift_bind opened,
    dif_pos (Path.onward_height_lt height)]
  rfl

variable (b extent q derivations finish) in
/-- Every path that there is from `v` on is explored to its end before anything else is, whatever
has been gathered up to there. -/
def ExploresAll (v : Value) : Prop :=
  ∀ values : List Value, values ≠ [] → ∀ rest out r,
    (∀ ds : List Derivation, b.Settles (exploring q finish rest (ds.reverse ++ out)) (r ds)) →
      b.Settles (exploring q finish (⟨values, v, extent v + 1⟩ :: rest) out)
        ((paths extent (steps derivations) v).mapM (endOf finish values.reverse v) >>= r)

/-- The paths through a step are explored to their ends. -/
theorem settles_exploring_through (path : Path) (d : Derivation)
    (shorter : extent d.remainder < extent path.remainder →
      ExploresAll b extent q derivations finish d.remainder)
    (others : ∀ ds, b.Settles (exploring q finish rest (ds.reverse ++ out)) (r ds)) :
    b.Settles (exploring q finish (path.onward extent d :: rest) out)
      ((pathsThrough extent (steps derivations) path.remainder d.toStep).mapM
        (endOf finish path.values.reverse path.remainder) >>= r) := by
  have values : (path.onward extent d).values.reverse = path.values.reverse ++ [d.value] :=
    List.reverse_cons
  unfold pathsThrough
  split
  · next stuck =>
    have ended : (path.onward extent d).height = 0 := if_pos stuck
    have whole := settles_exploring_ended (r := r) _ ended fun e => others [e]
    rw [values] at whole
    simp only [List.mapM_cons, List.mapM_nil, endOf_cons, bind_assoc, pure_bind]
    exact whole
  · next further =>
    have all := shorter (Nat.lt_of_not_le further) (d.value :: path.values) (by simp) rest out r
      others
    have height : (path.onward extent d).height = extent d.remainder + 1 := if_neg further
    have same : path.onward extent d =
        ⟨d.value :: path.values, d.remainder, extent d.remainder + 1⟩ := by
      rw [← height]
      rfl
    rw [List.reverse_cons] at all
    rw [same, List.mapM_map]
    simp only [Function.comp_def, endOf_cons]
    exact all

/-- The paths through several steps are explored in their order. -/
theorem settles_exploring_flatMap (path : Path) (shorter : ∀ d ∈ ds,
      extent d.remainder < extent path.remainder →
        ExploresAll b extent q derivations finish d.remainder)
    (others : ∀ ds, b.Settles (exploring q finish rest (ds.reverse ++ out)) (r ds)) :
    b.Settles (exploring q finish (ds.map (path.onward extent) ++ rest) out)
      (((ds.map Derivation.toStep).flatMap
          (pathsThrough extent (steps derivations) path.remainder)).mapM
        (endOf finish path.values.reverse path.remainder) >>= r) := by
  induction ds generalizing out r with
  | nil => simpa using others []
  | cons d ds ih =>
    simp only [List.map_cons, List.flatMap_cons, List.mapM_append, bind_assoc, pure_bind,
      List.cons_append]
    refine settles_exploring_through path d (shorter d List.mem_cons_self) fun here => ?_
    refine ih (fun e member => shorter e (List.mem_cons_of_mem _ member)) fun ds' => ?_
    simpa using others (here ++ ds')

end

namespace Effects

variable {b : Effects} {extent : Value → Nat} {inputs : Value → Prop} {p : Parser}
  {derivations : Value → List Derivation} {x : Value}

/-- The agenda goes through all paths from an input on. -/
theorem Enumerates.exploresAll (enumerates : b.Enumerates inputs inputs p derivations)
    (measured : b.Measures extent inputs) (finish : List Value → Except Error Value) (v : Value)
    (input : inputs v) : ExploresAll b extent p derivations finish v := by
  induction size : extent v using Nat.strongRecOn generalizing v with
  | ind n ih =>
    intro values further rest out r others
    have here := (enumerates.yields v input).settles
    by_cases none : derivations v = []
    · rw [none] at here
      rw [paths_of_eq_nil (by simp [steps, none])]
      simp only [List.mapM_cons, List.mapM_nil, bind_assoc, pure_bind]
      exact settles_exploring_stop ⟨values, v, _⟩ (Nat.succ_ne_zero _) further here
        fun d => others [d]
    · rw [paths_of_ne_nil (by simpa [steps] using none)]
      have left := enumerates.leaves v input
      refine settles_exploring_onward measured ⟨values, v, _⟩ rfl none here input left ?_
      refine settles_exploring_flatMap ⟨values, v, _⟩ (fun d member lower => ?_) others
      exact ih _ (size ▸ lower) d.remainder (left d member) rfl

/-- What is left by the steps are inputs again. -/
theorem Enumerates.leaves_steps (enumerates : b.Enumerates inputs inputs p derivations) :
    ∀ v, inputs v → ∀ step ∈ steps derivations v, inputs step.2 := by
  intro v input step member
  obtain ⟨d, inside, rfl⟩ := List.mem_map.mp member
  exact enumerates.leaves v input d inside

/-- What is left at the end of a path can be shown, should messages be recorded. -/
theorem Enumerates.shows_remainderAfter (enumerates : b.Enumerates inputs inputs p derivations)
    (input : inputs x) {path : List (Value × Value)}
    (member : path ∈ paths extent (steps derivations) x) : b.Shows (remainderAfter x path) := by
  have maximal := (mem_paths_iff x path).mp member
  exact (enumerates.yields _ (maximal.holds_remainderAfter enumerates.leaves_steps input)).read

/-- The values on a path can be shown, should messages be recorded. -/
theorem Enumerates.shows_values (enumerates : b.Enumerates inputs inputs p derivations)
    (values : b.Presents inputs derivations) (input : inputs x) {path : List (Value × Value)}
    (member : path ∈ paths extent (steps derivations) x) : ∀ step ∈ path, b.Shows step.1 := by
  have maximal := (mem_paths_iff x path).mp member
  refine maximal.forall_mem enumerates.leaves_steps (fun v input step member => ?_) input
  obtain ⟨d, inside, rfl⟩ := List.mem_map.mp member
  exact values v input d inside

/-! ## Repetitions -/

/-- One or more repetitions have a derivation for every path, unless there is no step at all. -/
theorem Enumerates.settles_many (enumerates : b.Enumerates inputs inputs p derivations)
    (measured : b.Measures extent inputs) (accumulate : Value) (input : inputs x) :
    b.Settles (fun ev => ev.process (.ofShape (.many p accumulate)) x)
      (if derivations x = [] then .ok [] else repeated extent derivations accumulate x) := by
  have out : ∀ ds : List Derivation, b.Settles (exploring p (accumulateValues accumulate) []
      (ds.reverse ++ [])) (.ok ds) := by
    intro ds
    refine (Settles.lift (.ok ds)).congr fun n s _ => ?_
    rw [exploring, explore, List.append_nil, List.reverse_reverse]
    rfl
  have here := (enumerates.yields x input).settles
  let path : Path := ⟨[], x, extent x + 1⟩
  have whole : b.Settles (exploring p (accumulateValues accumulate) [path] [])
      (if derivations x = [] then .ok [] else repeated extent derivations accumulate x) := by
    split
    · next none =>
      rw [none] at here
      exact settles_exploring_none path (Nat.succ_ne_zero _) rfl here (out [])
    · next some_ =>
      have left := enumerates.leaves x input
      refine settles_exploring_onward measured path rfl some_ here input left ?_
      have explored := settles_exploring_flatMap (q := p) path
        (fun d member _ => enumerates.exploresAll measured _ d.remainder (left d member)) out
      rw [repeated, paths_of_ne_nil (by simpa [steps] using some_)]
      rwa [show (_ >>= Except.ok : Except Error (List Derivation)) = _ from bind_pure _] at explored
  refine whole.congr fun n s start => ?_
  have begins : Path.start s.results x = path := by rw [Path.start, measured x input s start]
  change repeatParser _ _ _ _ s = _
  rw [repeatParser, Eval.readResults_bind, begins]
  rfl

/-- One or more repetitions, whether or not they are shown. -/
theorem Enumerates.yields_many (enumerates : b.Enumerates inputs inputs p derivations)
    (measured : b.Measures extent inputs) (accumulate : Value) (input : inputs x) :
    b.Yields (.ofShape (.many p accumulate)) x
      (if derivations x = [] then .ok [] else repeated extent derivations accumulate x) := by
  have here := enumerates.yields x input
  refine .of_process (.of_parts (Value.shownBy_many p accumulate) ?_) here.read rfl rfl
    (enumerates.settles_many measured accumulate input)
  exact List.forall_mem_singleton.mpr here.shown

/-- Zero or more repetitions have a derivation for every path, with the values in a list. -/
theorem Enumerates.yields_manyOrNone (enumerates : b.Enumerates inputs inputs p derivations)
    (measured : b.Measures extent inputs) (input : inputs x) :
    b.Yields (p.manyOrNone .missing .sequence) x
      (.ok ((paths extent (steps derivations) x).map fun path =>
        ⟨.list (path.map Prod.fst), remainderAfter x path⟩)) := by
  have many := enumerates.yields_many measured (.strategy .sequence) input
  have plain : (Value.list []).IsPlain := trivial
  have empty : b.Shows (.list []) := .of_parts (Value.shownBy_list []) (List.forall_mem_nil _)
  rw [repeated_sequence] at many
  by_cases none : derivations x = []
  · rw [if_pos none] at many
    rw [paths_of_eq_nil (by simp [steps, none])]
    exact yields_orElse_value plain empty many
  · rw [if_neg none] at many
    have whole := yields_orElse_value plain empty many
    rwa [if_neg (by simpa using paths_ne_nil _ _ x)] at whole

end Effects

/-! ## Parts of examples -/

namespace Parser

/-- The texts at the end of `abc`. -/
def endsOfAbc (v : Value) : Prop :=
  v = .text ['a', 'b', 'c'] ∨ v = .text ['b', 'c'] ∨ v = .text ['c'] ∨ v = .text []

/-- The first character, or the first two. -/
def oneOrTwo : Value → List Derivation
  | .text [a] => [⟨.text [a], .text []⟩]
  | .text (a :: b :: cs) => [⟨.text [a], .text (b :: cs)⟩, ⟨.text [a, b], .text cs⟩]
  | _ => []

end Parser

namespace Effects

variable {b : Effects}

theorem enumerates_oneOrTwo (quiet : b.debug = false) :
    b.Enumerates Parser.endsOfAbc Parser.endsOfAbc (.ofShape (.splits [.int 1, .int 2]))
      Parser.oneOrTwo where
  yields := by
    rintro v (rfl | rfl | rfl | rfl)
    all_goals
      refine .of_process (.of_quiet quiet) (.of_quiet quiet) rfl rfl ?_
      exact Settles.of_deep 0 fun _ _ => rfl
  leaves := by
    rintro v (rfl | rfl | rfl | rfl)
    all_goals simp [Parser.oneOrTwo, Parser.endsOfAbc]

theorem measures_endsOfAbc (results : Results) :
    b.Measures (·.extent results) Parser.endsOfAbc := by
  rintro v (rfl | rfl | rfl | rfl) s _
  all_goals rfl

end Effects

end GrammarKit
