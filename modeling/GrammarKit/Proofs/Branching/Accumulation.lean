import GrammarKit.Proofs.Branching.Nested
import GrammarKit.Proofs.Effects.Leads

/-! # One exploration, two accumulations

How the values along a path are accumulated has no part in which paths are explored. So whatever the
repeated parser does, an exploration that has come to an end with lists of values tells what every
other accumulation of the same values comes to: the same derivations with other values, or the
error of the first path whose values cannot be accumulated. For texts that is the path with the
first value that is no text.
-/

namespace GrammarKit

/-! ## The runs of an exploration -/

/-- The values that were gathered along a path, and what was left at its end. -/
structure Run where
  values : List Value
  left : Value

/-- The derivation of a run, with its values in a list. -/
def Run.listed (run : Run) : Derivation := ⟨.list run.values, run.left⟩

/-- The derivation of a run whose values are accumulated. -/
def Run.finished (finish : List Value → Except Error Value) (run : Run) :
    Except Error Derivation := do
  return ⟨← finish run.values, run.left⟩

theorem Run.listed_inj : ∀ run run' : Run, run.listed = run'.listed → run = run' := by
  rintro ⟨values, left⟩ ⟨values', left'⟩ same
  cases same
  rfl

section

variable {step : Value → Eval (List Derivation)} {budget budget' : Nat}
  {agenda agenda' : List Path} {s t u : Store} {run : Run} {runs : List Run}

/-- Whether the exploration of an agenda gathers runs and then leaves a store, however the values
are accumulated, unless these cannot be. -/
def Gathers (step : Value → Eval (List Derivation)) (budget : Nat) (agenda : List Path)
    (s : Store) (runs : List Run) (t : Store) : Prop :=
  ∀ finish out, (explore step finish budget agenda out).EndsAs
    ((out.reverse ++ ·) <$> runs.mapM (Run.finished finish)) s t

namespace Gathers

theorem nil : Gathers step budget [] s [] s := by
  intro finish out
  change explore step finish budget [] out s = .ok (out.reverse ++ []) s
  rw [explore, List.append_nil]
  rfl

/-- The exploration goes on with another agenda. -/
theorem of_rest (rest : Gathers step budget' agenda' t runs u)
    (same : ∀ finish out, explore step finish budget agenda out s =
      explore step finish budget' agenda' out t) : Gathers step budget agenda s runs u :=
  fun finish out => (rest finish out).congr (same finish out)

/-- The exploration goes on with another agenda, after the end of a path. -/
theorem of_end (rest : Gathers step budget' agenda' t runs u)
    (same : ∀ finish out, explore step finish budget agenda out s =
      (liftM (finish run.values) >>= fun v =>
        explore step finish budget' agenda' (⟨v, run.left⟩ :: out)) t) :
    Gathers step budget agenda s (run :: runs) u := by
  intro finish out
  have joined : (out.reverse ++ ·) <$> (run :: runs).mapM (Run.finished finish) =
      finish run.values >>= fun v =>
        ((⟨v, run.left⟩ :: out).reverse ++ ·) <$> runs.mapM (Run.finished finish) := by
    simp only [List.mapM_cons, Run.finished, bind_assoc, pure_bind, List.reverse_cons,
      List.append_assoc, List.singleton_append, map_eq_pure_bind]
  rw [joined]
  refine Eval.EndsAs.congr ?_ (same finish out)
  cases value : finish run.values with
  | error e => exact ⟨t, rfl⟩
  | ok v => exact rest finish (⟨v, run.left⟩ :: out)

end Gathers

/-- What the exploration of an agenda with an open path on top goes on with, whatever the
accumulation: the path ends where it is or comes to nothing, or others replace it. -/
inductive GoesOn (step : Value → Eval (List Derivation)) (budget : Nat) (path : Path)
    (rest : List Path) (s : Store) : Prop where
  | ended (t : Store) (same : ∀ finish out, explore step finish budget (path :: rest) out s =
      (liftM (finish path.values.reverse) >>= fun v =>
        explore step finish budget rest (⟨v, path.remainder⟩ :: out)) t)
  | dropped (t : Store) (same : ∀ finish out, explore step finish budget (path :: rest) out s =
      explore step finish budget rest out t)
  | replaced (opened : List Path) (low : ∀ p ∈ opened, p.height < path.height) (t : Store)
      (same : ∀ finish out, explore step finish budget (path :: rest) out s =
        explore step finish budget (opened ++ rest) out t)
  | spent (opened : List Path) (less : Nat) (more : budget = less + 1) (t : Store)
      (same : ∀ finish out, explore step finish budget (path :: rest) out s =
        explore step finish less (opened ++ rest) out t)

theorem goesOn_of_explore {path : Path} {rest : List Path}
    {finish : List Value → Except Error Value} {out ds : List Derivation} (opened : path.height ≠ 0)
    (ran : explore step finish budget (path :: rest) out s = .ok ds t) :
    GoesOn step budget path rest s := by
  rw [explore, if_neg opened] at ran
  obtain ⟨found, s', here, ran⟩ := Eval.bind_eq_ok_iff.mp ran
  by_cases none : found.isEmpty
  · by_cases first : path.values.isEmpty
    · refine .dropped s' fun finish out => ?_
      rw [explore, if_neg opened, Eval.bind_of_eq_ok here, if_pos none, if_pos first]
    · refine .ended s' fun finish out => ?_
      rw [explore, if_neg opened, Eval.bind_of_eq_ok here, if_pos none, if_neg first]
  · rw [if_neg none, Eval.readResults_bind] at ran
    obtain ⟨longer, s'', extended, ran⟩ := Eval.bind_eq_ok_iff.mp ran
    obtain ⟨reached, rfl⟩ := Eval.lift_eq_ok_iff.mp extended
    by_cases low : ∀ p ∈ longer, p.height < path.height
    · refine .replaced longer low s' fun finish out => ?_
      rw [explore, if_neg opened, Eval.bind_of_eq_ok here, if_neg none, Eval.readResults_bind,
        Eval.lift_bind reached, dif_pos low]
    · rw [dif_neg low] at ran
      cases budget with
      | zero => cases ran
      | succ less =>
        refine .spent longer less rfl s' fun finish out => ?_
        rw [explore, if_neg opened, Eval.bind_of_eq_ok here, if_neg none, Eval.readResults_bind,
          Eval.lift_bind reached, dif_neg low]

/-- An exploration that has come to an end with lists of values has gathered runs. -/
theorem exists_gathers {out ds : List Derivation}
    (ran : explore step (accumulateValues (.strategy .sequence)) budget agenda out s = .ok ds t) :
    ∃ runs, ds = out.reverse ++ runs.map Run.listed ∧ Gathers step budget agenda s runs t := by
  induction budget, agenda, out using explore.induct generalizing s with
  | case1 budget out =>
    rw [explore] at ran
    obtain ⟨rfl, rfl⟩ := Eval.pure_eq_ok_iff.mp ran
    exact ⟨[], (List.append_nil _).symm, .nil⟩
  | case2 budget out path rest zero ih =>
    rw [explore_ended path rest out zero] at ran
    obtain ⟨runs, rfl, gathers⟩ := ih (.list path.values.reverse) ran
    refine ⟨⟨path.values.reverse, path.remainder⟩ :: runs, by simp [Run.listed], ?_⟩
    exact gathers.of_end fun finish out => by rw [explore_ended path rest out zero]
  | case3 budget out path rest opened dropped ended replaced spent =>
    cases goesOn_of_explore opened ran with
    | ended s' same =>
      rw [same] at ran
      obtain ⟨runs, rfl, gathers⟩ := ended (.list path.values.reverse) ran
      exact ⟨⟨path.values.reverse, path.remainder⟩ :: runs, by simp [Run.listed],
        gathers.of_end same⟩
    | dropped s' same =>
      obtain ⟨runs, rfl, gathers⟩ := dropped ((same _ _).symm.trans ran)
      exact ⟨runs, rfl, gathers.of_rest same⟩
    | replaced longer low s' same =>
      obtain ⟨runs, rfl, gathers⟩ := replaced longer low ((same _ _).symm.trans ran)
      exact ⟨runs, rfl, gathers.of_rest same⟩
    | spent longer less more s' same =>
      subst more
      obtain ⟨runs, rfl, gathers⟩ := spent longer ((same _ _).symm.trans ran)
      exact ⟨runs, rfl, gathers.of_rest same⟩

end

/-! ## Uses of a repetition -/

namespace Evaluator

open Eval

variable {ev : Evaluator} {p q : Parser} {x accumulate : Value} {s t u v : Store}
  {ds : List Derivation}

/-- Messages show a repetition in the same way whatever the accumulation. -/
theorem describe_many (accumulate accumulate' : Value) :
    ev.describe (.parser (.ofShape (.many p accumulate))) =
      ev.describe (.parser (.ofShape (.many p accumulate'))) := by
  unfold describe Value.display
  cases ev.fuel <;> rfl

/-- A repetition that has come to an end with lists of values has gone through runs, and every
other accumulation amounts to what these come to. -/
theorem process_many (ran : ev.process (p.many .sequence) x s = .ok ds t) :
    ∃ runs : List Run, ds = runs.map Run.listed ∧ ∀ accumulate,
      (ev.process (.ofShape (.many p accumulate)) x).EndsAs
        (runs.mapM (Run.finished (accumulateValues accumulate))) s t := by
  obtain ⟨runs, rfl, gathers⟩ := exists_gathers (s := s) ran
  refine ⟨runs, rfl, fun accumulate => ?_⟩
  have ends := gathers (accumulateValues accumulate) []
  rw [show (([] : List Derivation).reverse ++ ·) = id from rfl, id_map] at ends
  exact ends.congr rfl

theorem use_many (ran : ev.use (p.many .sequence) x s = .ok ds t) :
    ∃ runs : List Run, ds = runs.map Run.listed ∧ ∀ accumulate,
      (ev.use (.ofShape (.many p accumulate)) x).EndsAs
        (runs.mapM (Run.finished (accumulateValues accumulate))) s t := by
  obtain ⟨s', t', tried, processed, told⟩ := (use_eq_ok_iff rfl rfl).mp ran
  obtain ⟨runs, rfl, ends⟩ := process_many processed
  refine ⟨runs, rfl, fun accumulate => ?_⟩
  have same : ev.describe (.parser (.ofShape (.many p accumulate))) =
      ev.describe (.parser (p.many .sequence)) := describe_many _ _
  have tried' : ev.Announces (.ofShape (.many p accumulate)) x s s' := by
    rwa [Announces, logTrying, same]
  have ends := ends accumulate
  cases finished : runs.mapM (Run.finished (accumulateValues accumulate)) with
  | error e =>
    rw [finished] at ends
    obtain ⟨u, raised⟩ := ends
    exact ⟨u, use_of_raised rfl tried' raised⟩
  | ok es =>
    rw [finished] at ends
    refine (use_eq_ok_iff rfl rfl).mpr ⟨s', t', tried', ends, ?_⟩
    have count : es.length = (runs.map Run.listed).length := by
      rw [List.length_map, Except.length_of_mapM_eq_ok finished]
    rwa [Reports, logProduced, same, count]

end Evaluator

/-! ## Texts -/

/-- The characters of a text. -/
def Value.characters : Value → List Char
  | .text cs => cs
  | _ => []

def Value.isText : Value → Bool
  | .text _ => true
  | _ => false

/-- The derivation of a run of texts, with these in one. -/
def Run.joined (run : Run) : Derivation := ⟨.text (run.values.flatMap Value.characters), run.left⟩

/-- The first value that is no text in the first run that has one. -/
def firstOther (runs : List Run) : Option Value :=
  runs.findSome? fun run => run.values.find? fun v => !v.isText

/-- The derivations of runs of texts, with these in one; the error of the first value that is no
text, if there is one. -/
def joinedAll (runs : List Run) : Except Error (List Derivation) :=
  match firstOther runs with
  | none => .ok (runs.map Run.joined)
  | some v => .error (.textNeeded v.kindName)

theorem accumulateValues_text (values : List Value) : accumulateValues (.strategy .text) values =
    match values.find? fun v => !v.isText with
    | none => .ok (.text (values.flatMap Value.characters))
    | some v => .error (.textNeeded v.kindName) := by
  change accumulateValues.concatenate values = _
  induction values with
  | nil => rfl
  | cons v values ih =>
    cases v with
    | text cs =>
      change (accumulateValues.concatenate values >>= fun w => _) = _
      rw [ih, List.find?_cons_of_neg (by simp [Value.isText])]
      cases values.find? fun v => !v.isText with
      | none => rfl
      | some v => rfl
    | _ => rfl

/-- What runs come to as texts. -/
theorem mapM_finished_text (runs : List Run) :
    runs.mapM (Run.finished (accumulateValues (.strategy .text))) = joinedAll runs := by
  induction runs with
  | nil => rfl
  | cons run runs ih =>
    simp only [List.mapM_cons, ih, Run.finished, accumulateValues_text, joinedAll, firstOther,
      List.findSome?_cons]
    cases run.values.find? fun v => !v.isText with
    | some v => rfl
    | none => cases runs.findSome? fun run => run.values.find? fun v => !v.isText <;> rfl

/-! ## Texts in the place of lists -/

namespace Effects

variable {b : Effects} {p : Parser} {x v : Value} {s : Store} {ds : List Derivation}
  {r : Except Error (List Derivation)}

/-- What can be shown with one accumulation can be shown with another. -/
theorem Shows.many {accumulate : Value} (accumulate' : Value)
    (shown : b.Shows (Parser.ofShape (.many p accumulate)).toValue) :
    b.Shows (Parser.ofShape (.many p accumulate')).toValue := by
  intro debug
  obtain ⟨depth, texts⟩ := shown debug
  refine ⟨depth, fun n deep s start => ?_⟩
  obtain ⟨text, shows⟩ := texts n deep s start
  exact ⟨text, (congrFun (Evaluator.describe_many accumulate' accumulate) s).trans shows⟩

/-- Repetitions with lists of values have gone through runs, and repetitions of texts come to these
runs with their texts joined. -/
theorem comesTo_many_text (start : b.start s) (found : b.Yields (p.many .sequence) x (.ok ds)) :
    ∃ runs : List Run, ds = runs.map Run.listed ∧ b.ComesTo (p.many .text) x (joinedAll runs) := by
  obtain ⟨depth, ends⟩ := found.settles
  have each (n : Nat) (deep : depth ≤ n) (s : Store) (start : b.start s) :
      ∃ (runs : List Run) (t : Store), b.leave s t ∧ ds = runs.map Run.listed ∧
        ((evaluator n).parse (p.many .text) x).EndsAs (joinedAll runs) s t := by
    obtain ⟨t, leave, ran⟩ := ends n deep s start
    cases n with
    | zero => cases ran
    | succ n =>
      obtain ⟨runs, same, finished⟩ := Evaluator.use_many ran
      have finished := finished (.strategy .text)
      rw [mapM_finished_text] at finished
      exact ⟨runs, t, leave, same, finished.congr rfl⟩
  obtain ⟨runs, -, -, rfl, -⟩ := each depth (Nat.le_refl depth) s start
  refine ⟨runs, rfl, .of_ends (found.shown.many _) found.read ⟨depth, fun n deep s start => ?_⟩⟩
  obtain ⟨runs', t, leave, same, finished⟩ := each n deep s start
  obtain rfl := (List.map_inj_right Run.listed_inj).mp same
  exact ⟨t, leave, finished⟩

end Effects

/-- The runs of zero or more repetitions on an input: without any, there is one that has no
values. -/
def runsOrNone (x : Value) (runs : List Run) : List Run :=
  if runs = [] then [⟨[], x⟩] else runs

theorem map_listed_runsOrNone (x : Value) (runs : List Run) : (runsOrNone x runs).map Run.listed =
    if runs.map Run.listed = [] then [⟨.list [], x⟩] else runs.map Run.listed := by
  cases runs <;> rfl

theorem joinedAll_runsOrNone (x : Value) (runs : List Run) : joinedAll (runsOrNone x runs) =
    joinedAll runs >>= fun ds => .ok (if ds = [] then [⟨.text [], x⟩] else ds) := by
  cases runs with
  | nil => rfl
  | cons run runs =>
    change joinedAll (run :: runs) = _
    unfold joinedAll
    cases firstOther (run :: runs) <;> rfl

namespace Effects

variable {b : Effects} {p : Parser} {x : Value} {s : Store} {ds : List Derivation}

/-- Whatever lists of values the repetitions of a parser have, repetitions of texts have these
joined, in the same order, or end with the error of the first value that is no text, which names its
kind. With zero repetitions allowed that stays so, and the value for none is the empty one. -/
theorem texts_are_lists_joined (start : b.start s)
    (found : b.Yields (p.many .sequence) x (.ok ds)) : ∃ runs : List Run,
      ds = runs.map Run.listed ∧ b.ComesTo (p.many .text) x (joinedAll runs) ∧
      b.Yields (p.manyOrNone .missing .sequence) x (.ok ((runsOrNone x runs).map Run.listed)) ∧
      b.ComesTo (p.manyOrNone .missing .text) x (joinedAll (runsOrNone x runs)) ∧
      ∀ e, joinedAll runs = .error e → ∃ v, firstOther runs = some v ∧
        e.message? = some ("Accumulate.TEXT needs string values, got ".toList ++
          v.kindName.toList ++ ". Use Accumulate.SEQUENCE instead.".toList) := by
  obtain ⟨runs, rfl, texts⟩ := comesTo_many_text start found
  have empty : b.Shows (.list []) := .of_parts (Value.shownBy_list []) (List.forall_mem_nil _)
  have empty' : b.Shows (.text []) := .of_display fun _ fuel => by cases fuel <;> exact ⟨_, rfl⟩
  refine ⟨runs, rfl, texts, ?_, ?_, fun e refused => ?_⟩
  · rw [map_listed_runsOrNone]
    exact yields_orElse_value trivial empty found
  · rw [joinedAll_runsOrNone]
    exact texts.orElse trivial empty'
  · cases first : firstOther runs with
    | none =>
      rw [joinedAll, first] at refused
      cases refused
    | some v =>
      rw [joinedAll, first] at refused
      cases refused
      exact ⟨v, rfl, rfl⟩

end Effects

/-! ## Texts, and other values among them -/

namespace Accumulation

/-- A text and a number, with nothing left. -/
def textOrNumber : Parser :=
  .ofShape (.emit [.tuple [.text ['a'], .text []], .tuple [.int 1, .text []]])

theorem enumerates_textOrNumber : (Effects.messages Store.initial).Enumerates (· = .text [])
    (· = .text []) textOrNumber fun _ => [⟨.text ['a'], .text []⟩, ⟨.int 1, .text []⟩] where
  yields := by
    rintro v rfl
    exact .of_process (.of_quiet rfl) (.of_quiet rfl) rfl rfl (.of_deep 0 fun _ _ => rfl)
  leaves := by simp

/-- The second of two paths has a value that is no text. -/
theorem yields_textOrNumber_many : (Effects.messages Store.initial).Yields
    (textOrNumber.many .sequence) (.text [])
      (.ok [⟨.list [.text ['a']], .text []⟩, ⟨.list [.int 1], .text []⟩]) := by
  have measured : (Effects.messages Store.initial).Measures (·.extent Store.initial.results)
      (· = .text []) := by
    rintro v rfl s _
    rfl
  have whole := enumerates_textOrNumber.yields_many measured (.strategy .sequence) rfl
  rw [repeated_sequence, paths_of_ne_nil (by simp [steps])] at whole
  simp only [steps, Derivation.toStep, List.map_cons, List.map_nil, List.flatMap_cons,
    List.flatMap_nil, pathsThrough, Nat.le_refl, if_true] at whole
  exact whole

theorem yields_oneOrTwo_many : (Effects.messages Store.initial).Yields
    (Nested.oneOrTwo.many .sequence) (.text ['a', 'b', 'c'])
      (.ok [⟨.list [.text ['a'], .text ['b'], .text ['c']], .text []⟩,
        ⟨.list [.text ['a'], .text ['b', 'c']], .text []⟩,
        ⟨.list [.text ['a', 'b'], .text ['c']], .text []⟩]) := by
  have enumerates : (Effects.messages Store.initial).Enumerates Parser.endsOfAbc Parser.endsOfAbc
      Nested.oneOrTwo Parser.oneOrTwo := Effects.enumerates_oneOrTwo rfl
  have whole := enumerates.yields_many (Effects.measures_endsOfAbc Store.initial.results)
    (.strategy .sequence) (x := .text ['a', 'b', 'c']) (.inl rfl)
  rw [repeated_sequence, ← apply_ite] at whole
  rw [← Nested.repetitions_oneOrTwo]
  exact whole

/-- Three ways to read a text by one or two characters, and a text and a number, of which the number
cannot be joined. -/
theorem texts_are_lists_joined_or_refused :
    (Effects.messages Store.initial).ComesTo (Nested.oneOrTwo.many .text) (.text ['a', 'b', 'c'])
      (.ok (List.replicate 3 ⟨.text ['a', 'b', 'c'], .text []⟩)) ∧
    (Effects.messages Store.initial).ComesTo (textOrNumber.many .text) (.text [])
      (.error (.textNeeded "int")) := by
  have start : (Effects.messages Store.initial).start Store.initial := .refl _
  constructor
  · obtain ⟨runs, same, joined, -⟩ := Effects.texts_are_lists_joined start yields_oneOrTwo_many
    obtain rfl : [⟨[.text ['a'], .text ['b'], .text ['c']], .text []⟩,
      ⟨[.text ['a'], .text ['b', 'c']], .text []⟩,
      ⟨[.text ['a', 'b'], .text ['c']], .text []⟩] = runs :=
        (List.map_inj_right Run.listed_inj).mp same
    exact joined
  · obtain ⟨runs, same, joined, -⟩ := Effects.texts_are_lists_joined start yields_textOrNumber_many
    obtain rfl : [⟨[.text ['a']], .text []⟩, ⟨[.int 1], .text []⟩] = runs :=
      (List.map_inj_right Run.listed_inj).mp same
    exact joined

end Accumulation

end GrammarKit
