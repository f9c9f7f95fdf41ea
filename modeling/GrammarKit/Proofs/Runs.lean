import GrammarKit.Proofs.DepthFirst
import GrammarKit.Proofs.Effects.Single

/-! # Repetition without alternatives

A parser that has at most one derivation at a time is repeated along a single path. `Runs` tells
the path: what is gathered and what is left where the parser fails, or the error that ends it. A
repetition yields what its run amounts to, which makes the agenda of `explore` unnecessary for all
parsers that are not ambiguous.
-/

namespace GrammarKit

/-- The derivation of a run, if something was gathered. -/
def gathered (accumulate : Value) (values : List Value) (left : Value) :
    Except Error (List Derivation) :=
  if values.isEmpty then .ok [] else do return [⟨← accumulateValues accumulate values, left⟩]

/-- The repetition of a parser along the only open path. -/
def runFrom (p : Parser) (accumulate : Value) (values : List Value) (x : Value) (ev : Evaluator) :
    Eval (List Derivation) :=
  explore (ev.parse p) (accumulateValues accumulate) ev.fuel [⟨values, x, x.width + 1⟩] []

namespace Effects

variable {b : Effects} {p : Parser} {x : Value} {o : Except Error (List Value × Value)}

/-- What repetitions of a parser gather from `x` on and what they leave, or their error. -/
inductive Runs (b : Effects) (p : Parser) : Value → Except Error (List Value × Value) → Prop where
  | stop {x : Value} : b.Yields p x (.ok []) → Runs b p x (.ok ([], x))
  | error {x : Value} {e : Error} : b.Yields p x (.error e) → b.Runs p x (.error e)
  | next {x v rest : Value} {o : Except Error (List Value × Value)} :
    b.Yields p x (.ok [⟨v, rest⟩]) → rest.IsSequence → rest.width < x.width → b.Runs p rest o →
      b.Runs p x (o.map fun (vs, left) => (v :: vs, left))

section

variable {accumulate v rest : Value} {values : List Value} {r : Except Error (List Derivation)}

/-- Where the parser fails, the path ends with what was gathered. -/
theorem settles_runFrom_stop (here : b.Yields p x (.ok [])) :
    b.Settles (runFrom p accumulate values x) (gathered accumulate values.reverse x) := by
  obtain ⟨depth, ends⟩ := here.settles
  refine ⟨depth, fun n deep s start => ?_⟩
  obtain ⟨t, after, found⟩ := ends n deep s start
  refine ⟨t, after, ?_⟩
  rw [runFrom, explore, if_neg (Nat.succ_ne_zero _), Eval.bind_of_eq_ok found]
  rw [if_pos List.isEmpty_nil, gathered, List.isEmpty_reverse]
  by_cases first : values.isEmpty
  · rw [if_pos first, if_pos first, explore]
    rfl
  · rw [if_neg first, if_neg first]
    cases accumulateValues accumulate values.reverse with
    | ok w =>
      rw [Eval.lift_bind rfl, explore]
      rfl
    | error e => rfl

theorem settles_runFrom_error {e : Error} (here : b.Yields p x (.error e)) :
    b.Settles (runFrom p accumulate values x) (.error e) := by
  obtain ⟨depth, ends⟩ := here.settles
  refine ⟨depth, fun n deep s start => ?_⟩
  obtain ⟨t, after, given⟩ := ends n deep s start
  refine ⟨t, after, ?_⟩
  rw [runFrom, explore, if_neg (Nat.succ_ne_zero _)]
  exact Eval.bind_of_eq_error given _

/-- One more value, and the path goes on from what it left. -/
theorem settles_runFrom_next (here : b.Yields p x (.ok [⟨v, rest⟩])) (before : x.IsSequence)
    (after : rest.IsSequence) (shorter : rest.width < x.width)
    (others : b.Settles (runFrom p accumulate (v :: values) rest) r) :
    b.Settles (runFrom p accumulate values x) r := by
  refine here.settles.after others fun n s t _ found => ?_
  have opened := Path.extendAll_eq_map t.results ⟨values, x, x.width + 1⟩ [⟨v, rest⟩] before
    (List.forall_mem_singleton.mpr after)
  have along : [(⟨v, rest⟩ : Derivation)].map (Path.along ⟨values, x, x.width + 1⟩) =
      [⟨v :: values, rest, rest.width + 1⟩] := by
    simp [Path.along, Nat.not_le_of_lt shorter]
  rw [along] at opened
  have low : ∀ p ∈ [(⟨v :: values, rest, rest.width + 1⟩ : Path)], p.height < x.width + 1 :=
    List.forall_mem_singleton.mpr (Nat.succ_lt_succ shorter)
  rw [runFrom, explore, if_neg (Nat.succ_ne_zero _), Eval.bind_of_eq_ok found]
  rw [if_neg (by simp), Eval.readResults_bind, Eval.lift_bind opened, dif_pos low]
  rfl

end

/-- What was gathered before a run comes before what the run gathers. -/
theorem Runs.settles_runFrom (runs : b.Runs p x o) {accumulate : Value} (values : List Value)
    (sequence : x.IsSequence) :
    b.Settles (runFrom p accumulate values x)
      (o >>= fun (vs, left) => gathered accumulate (values.reverse ++ vs) left) := by
  induction runs generalizing values with
  | @stop x here =>
    change b.Settles _ (gathered accumulate (values.reverse ++ []) x)
    rw [List.append_nil]
    exact settles_runFrom_stop here
  | error here => exact settles_runFrom_error here
  | @next x v rest o here after shorter others ih =>
    have tail := settles_runFrom_next here sequence after shorter (ih (v :: values) after)
    cases o with
    | ok found =>
      change b.Settles _ (gathered accumulate (values.reverse ++ v :: found.1) found.2)
      rw [← List.singleton_append, ← List.append_assoc, ← List.reverse_cons]
      exact tail
    | error e => exact tail

theorem Runs.shown (runs : b.Runs p x o) : b.Shows p.toValue := by
  cases runs with
  | stop here | error here | next here => exact here.shown

theorem Runs.read (runs : b.Runs p x o) : b.Shows x := by
  cases runs with
  | stop here | error here | next here => exact here.read

/-- One or more repetitions yield what the run amounts to. -/
theorem Runs.produces_many (runs : b.Runs p x o) (accumulate : Value) (sequence : x.IsSequence) :
    b.Produces (Parser.ofShape (.many p accumulate)) x
      (o >>= fun (vs, left) => gathered accumulate vs left) := by
  refine .of_process (.of_parts (Value.shownBy_many p accumulate) ?_) runs.read rfl rfl ?_
  · exact List.forall_mem_singleton.mpr runs.shown
  · refine (runs.settles_runFrom [] sequence).congr fun n s _ => ?_
    have height : Path.start s.results x = ⟨[], x, x.width + 1⟩ := by
      simp only [Path.start, Value.length_of_isSequence sequence]
    rw [runFrom, ← height]
    rfl

/-- A run that gathers nothing leaves everything. -/
theorem Runs.left_of_nil {left : Value} (runs : b.Runs p x (.ok ([], left))) : left = x := by
  generalize same : (Except.ok ([], left) : Except Error _) = o at runs
  cases runs with
  | stop _ => cases same; rfl
  | error _ => cases same
  | @next _ _ _ o _ _ _ _ =>
    cases o with
    | ok found => cases same
    | error e => cases same

/-- The run of a parser on an input is unique, if there is a store to start from. -/
theorem Runs.unique {s : Store} {o' : Except Error (List Value × Value)} (start : b.start s)
    (runs : b.Runs p x o) (runs' : b.Runs p x o') : o = o' := by
  induction runs generalizing o' with
  | stop here =>
    cases runs' with
    | stop _ => rfl
    | error here' => cases here.unique start here'
    | next here' => cases here.unique start here'
  | error here =>
    cases runs' with
    | stop here' => cases here.unique start here'
    | error here' =>
      cases here.unique start here'
      rfl
    | next here' => cases here.unique start here'
  | next here _ _ _ ih =>
    cases runs' with
    | stop here' => cases here.unique start here'
    | error here' => cases here.unique start here'
    | next here' _ _ others =>
      cases here.unique start here'
      rw [ih others]

/-- A run leaves no more than there was. -/
theorem Runs.width_le {values : List Value} {left : Value}
    (runs : b.Runs p x (.ok (values, left))) : left.width ≤ x.width := by
  generalize same : (Except.ok (values, left) : Except Error _) = o at runs
  induction runs generalizing values left with
  | stop _ =>
    cases same
    exact Nat.le_refl _
  | error _ => cases same
  | @next _ _ _ o _ _ shorter _ ih =>
    cases o with
    | ok found =>
      cases same
      exact Nat.le_trans (ih rfl) (Nat.le_of_lt shorter)
    | error e => cases same

/-- What a run leaves can be shown. -/
theorem Runs.shows_left {values : List Value} {left : Value}
    (runs : b.Runs p x (.ok (values, left))) : b.Shows left := by
  generalize same : (Except.ok (values, left) : Except Error _) = o at runs
  induction runs generalizing values left with
  | stop here =>
    cases same
    exact here.read
  | error _ => cases same
  | @next _ _ _ o _ _ _ _ ih =>
    cases o with
    | ok found =>
      cases same
      exact ih rfl
    | error e => cases same

/-- Zero or more repetitions have one derivation, unless there is an error. -/
theorem Runs.produces_manyOrNone (runs : b.Runs p x o) (strategy : Strategy)
    (sequence : x.IsSequence) :
    b.Produces (p.manyOrNone .missing strategy) x
      (o >>= fun (vs, left) => do return [⟨← accumulateValues (.strategy strategy) vs, left⟩]) := by
  have many := (runs.produces_many (.strategy strategy) sequence).yields
  have nothing : b.Yields (Parser.asParser strategy.empty) x (.ok [⟨strategy.empty, x⟩]) := by
    cases strategy with
    | text => exact yields_asParser trivial (shows_text _) runs.read
    | sequence =>
      exact yields_asParser trivial (.of_parts (Value.shownBy_list []) (List.forall_mem_nil _))
        runs.read
  cases o with
  | error e => exact produces_orElse_error many nothing.shown
  | ok found =>
    obtain ⟨vs, left⟩ := found
    cases vs with
    | nil =>
      obtain rfl := runs.left_of_nil
      have none := produces_orElse_right many nothing
      cases strategy <;> exact none
    | cons v vs =>
      change b.Produces _ x
        (do return [⟨← accumulateValues (.strategy strategy) (v :: vs), left⟩])
      change b.Yields _ x
        (do return [⟨← accumulateValues (.strategy strategy) (v :: vs), left⟩]) at many
      cases value : accumulateValues (.strategy strategy) (v :: vs) with
      | ok w =>
        rw [value] at many
        exact produces_orElse_left many nothing.shown
      | error e =>
        rw [value] at many
        exact produces_orElse_error many nothing.shown

end Effects

end GrammarKit
