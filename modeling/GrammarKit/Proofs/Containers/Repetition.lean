import GrammarKit.Proofs.Containers.Uniform
import GrammarKit.Proofs.DepthFirst

/-! # Repetition of uniform parsers

Which paths are on the agenda of a repetition, and how high they are, depends on how many characters
are left, but not on the container that these are in. So repetitions of a uniform parser explore the
same paths, whatever a string comes in, and are uniform again.
-/

namespace GrammarKit

/-- A path through a string: the values, latest first, the characters that are left, and the
height. -/
structure Trail where
  values : List Value
  rest : List Char
  height : Nat

namespace Trail

/-- A path through a string in a container. -/
def path (c : Container) (trail : Trail) : Path := ⟨trail.values, c.of trail.rest, trail.height⟩

/-- The path one repetition further. It has ended if nothing was consumed. -/
def onward (trail : Trail) (reading : Reading) : Trail :=
  ⟨reading.value :: trail.values, reading.rest,
    if trail.rest.length ≤ reading.rest.length then 0 else reading.rest.length + 1⟩

/-- What holds of every path on the agenda: its values are ordinary, less than `limit` characters
are left, and unless it has ended it is as high as there are characters left. -/
structure Within (limit : Nat) (trail : Trail) : Prop where
  ordinary : ∀ v ∈ trail.values, v.IsOrdinary
  shorter : trail.rest.length < limit
  height : trail.height = 0 ∨ trail.height = trail.rest.length + 1

/-- An agenda comes before another one if its topmost path is replaced by lower ones. -/
def Replaces (after before : List Trail) : Prop :=
  Path.Replaces (after.map (path .text)) (before.map (path .text))

theorem replaces_wellFounded : WellFounded Replaces :=
  InvImage.wf (List.map (path .text)) Path.replaces_wellFounded

variable {trail : Trail} {readings : List Reading} {limit : Nat}

theorem Within.onward (within : trail.Within limit) {reading : Reading}
    (inside : reading.Within limit) : (trail.onward reading).Within limit := by
  refine ⟨List.forall_mem_cons.mpr ⟨inside.ordinary, within.ordinary⟩, inside.shorter, ?_⟩
  by_cases stuck : trail.rest.length ≤ reading.rest.length
  · exact .inl (if_pos stuck)
  · exact .inr (if_neg stuck)

theorem extendAll_path (c : Container) (results : Results) :
    (trail.path c).extendAll results (c.derivations readings) =
      .ok ((readings.map trail.onward).map (path c)) := by
  rw [Path.extendAll, Container.derivations, List.mapM_map, List.map_map, ← Except.mapM_ok]
  refine congrArg (readings.mapM ·) (funext fun reading => ?_)
  simp only [Function.comp, Path.extend, path, c.length_of]
  rfl

/-- The paths that lead on from an open path are lower. -/
theorem low_path (height : trail.height = trail.rest.length + 1) (c : Container) :
    ∀ p ∈ (readings.map trail.onward).map (path c), p.height < (trail.path c).height := by
  refine List.forall_mem_map.mpr (List.forall_mem_map.mpr fun reading _ => ?_)
  simp only [path, onward, height]
  split <;> omega

/-- A path is replaced by those that lead on from it. -/
theorem replaces_onward (height : trail.height = trail.rest.length + 1) (rest : List Trail) :
    Replaces (readings.map trail.onward ++ rest) (trail :: rest) :=
  ⟨trail.path .text, rest.map (path .text), (readings.map trail.onward).map (path .text), rfl,
    List.map_append, low_path height .text⟩

end Trail

section

variable {step : Value → Eval (List Derivation)} {finish : List Value → Except Error Value}
  {budget : Nat} {path : Path}

/-- An open path is taken further by a step. -/
theorem explore_opened (opened : path.height ≠ 0) (rest : List Path) (out : List Derivation) :
    explore step finish budget (path :: rest) out = (do
      let found ← step path.remainder
      if found.isEmpty then
        if path.values.isEmpty then explore step finish budget rest out
        else
          let value ← finish path.values.reverse
          explore step finish budget rest (⟨value, path.remainder⟩ :: out)
      else
        let results ← Store.readResults
        let opened ← path.extendAll results found
        if ∀ p ∈ opened, p.height < path.height then
          explore step finish budget (opened ++ rest) out
        else
          match budget with
          | 0 => throw .outOfFuel
          | budget + 1 => explore step finish budget (opened ++ rest) out) := by
  rw [explore, if_neg opened]
  rfl

end

namespace Effects

variable {b : Effects} {p : Parser} {limit : Nat} {finish : List Value → Except Error Value}

/-- The agendas for the containers stay alike until they are empty: every path on them leads on in
the same way, or ends with the same value. -/
theorem UniformBelow.reads_explore (uniform : b.UniformBelow limit p)
    (gathers : ∀ vs, (∀ v ∈ vs, v.IsOrdinary) → ∀ v, finish vs = .ok v → v.IsOrdinary)
    (agenda : List Trail) : (∀ trail ∈ agenda, trail.Within limit) → ∀ out : List Reading,
      (∀ reading ∈ out, reading.Within limit) → b.Reads limit fun c ev =>
        explore (ev.parse p) finish ev.fuel (agenda.map (Trail.path c)) (c.derivations out) := by
  induction agenda using Trail.replaces_wellFounded.induction with
  | h agenda ih =>
    intro within out found
    cases agenda with
    | nil =>
      have all : ∀ reading ∈ out.reverse, reading.Within limit := fun reading member =>
        found reading (List.mem_reverse.mp member)
      refine (Alike.pure all).congr fun c n s _ => ?_
      rw [List.map_nil, explore, Container.derivations, Container.derivations, List.map_reverse]
    | cons trail rest =>
      obtain ⟨here, others⟩ := List.forall_mem_cons.mp within
      have go_on := ih rest (Path.replaces_tail _ _) others
      -- What follows the end of the path.
      have closed : b.Reads limit fun c ev => liftM (finish trail.values.reverse) >>= fun value =>
          explore (ev.parse p) finish ev.fuel (rest.map (Trail.path c))
            (⟨value, c.of trail.rest⟩ :: c.derivations out) := by
        have values : ∀ v ∈ trail.values.reverse, v.IsOrdinary := fun v member =>
          here.ordinary v (List.mem_reverse.mp member)
        exact (Concludes.lift (gathers _ values)).bind fun value ordinary =>
          go_on (⟨value, trail.rest⟩ :: out)
            (List.forall_mem_cons.mpr ⟨⟨ordinary, here.shorter⟩, found⟩)
      by_cases ended : trail.height = 0
      · refine closed.congr fun c n s _ => ?_
        rw [List.map_cons, explore_ended (trail.path c) _ _ ended]
        rfl
      · have height := here.height.resolve_left ended
        have opened (c : Container) : (trail.path c).height ≠ 0 := ended
        simp only [List.map_cons, explore_opened (opened _)]
        refine (uniform.reads here.shorter).bind fun readings inside => ?_
        cases readings with
        | nil =>
          by_cases first : trail.values.isEmpty = true
          · refine (go_on out found).congr fun c n s _ => ?_
            exact congrFun (if_pos first) s
          · refine closed.congr fun c n s _ => ?_
            exact congrFun (if_neg first) s
        | cons reading readings =>
          have further : ∀ other ∈ (reading :: readings).map trail.onward ++ rest,
              other.Within limit :=
            List.forall_mem_append.mpr
              ⟨List.forall_mem_map.mpr fun r member => here.onward (inside r member), others⟩
          refine (ih _ (Trail.replaces_onward height rest) further out found).readResults_bind
            fun c n results _ => ?_
          rw [Trail.extendAll_path, List.map_append]
          exact if_pos (Trail.low_path height c)

/-- One or more repetitions. -/
theorem UniformBelow.many (uniform : b.UniformBelow limit p) (s : Strategy) :
    b.UniformBelow limit (p.many s) := by
  intro cs short
  refine .of_process (.of_parts (Value.shownBy_many p _) ?_) rfl rfl ?_
  · exact List.forall_mem_singleton.mpr (uniform cs short).shown
  · have first : (⟨[], cs, cs.length + 1⟩ : Trail).Within (cs.length + 1) :=
      ⟨List.forall_mem_nil _, Nat.lt_succ_self _, .inr rfl⟩
    refine ((uniform.mono short).reads_explore
      (fun _ all _ gathered => Value.IsOrdinary.of_accumulateValues (s := s) all gathered) _
      (List.forall_mem_singleton.mpr first) [] (List.forall_mem_nil _)).readResults_bind
      fun c n results _ => ?_
    rw [Path.start, c.length_of]
    rfl

/-- Zero or more repetitions. -/
theorem UniformBelow.manyOrNone (uniform : b.UniformBelow limit p) {empty : Value} (s : Strategy)
    (other : empty ≠ .missing → b.UniformBelow limit (Parser.asParser empty)) :
    b.UniformBelow limit (p.manyOrNone empty s) := by
  refine (uniform.many s).orElse (List.forall_mem_singleton.mpr ?_)
  cases empty with
  | missing =>
    cases s with
    | text => exact uniform_asParser (.text [])
    | sequence => exact uniform_asParser (.list (List.forall_mem_nil _))
  | _ => exact other (by nofun)

end Effects

end GrammarKit
