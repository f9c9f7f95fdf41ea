import GrammarKit.Proofs.Sequence
import GrammarKit.Proofs.Use

/-! # Repetition as a recursion

The agenda of `explore` stands for a recursion that has no stack of its own: evaluate the parser
on what is left, then follow each of its derivations in order, to the end, before the next one.
`process_many` states that the two are the same evaluation, with the same effects in the same
order and the same error, for every step that leaves plain sequences.

Nothing is assumed of the step besides: it may be ambiguous, fail, stop, change the store, and
leave remainders that have nothing to do with its input.
-/

namespace GrammarKit

variable (step : Value → Eval (List Derivation)) (finish : List Value → Except Error Value)

/-- The derivation of a path that ends with `values` gathered and `remainder` left. -/
def pathEnd (values : List Value) (remainder : Value) : Eval (List Derivation) := do
  return [⟨← finish values, remainder⟩]

mutual

/-- The repetitions from `input` on, after `values` have been gathered: where the step fails, the
values end there; otherwise each of its derivations is followed. -/
def depthFirst (values : List Value) (input : Value) : Eval (List Derivation) := do
  let found ← step input
  if found.isEmpty then
    if values.isEmpty then return [] else pathEnd finish values input
  else followAll values input found
termination_by (input.width, 1, 0)

/-- The repetitions through each of several derivations that were found on `input`, in order. One
that left no less than there was is the last of its path. -/
def followAll (values : List Value) (input : Value) : List Derivation → Eval (List Derivation)
  | [] => return []
  | d :: ds => do
    let here ← (if input.width ≤ d.remainder.width
      then pathEnd finish (values ++ [d.value]) d.remainder
      else depthFirst (values ++ [d.value]) d.remainder)
    return here ++ (← followAll values input ds)
termination_by ds => (input.width, 0, ds.length)

end

/-- A step that leads from `inputs` to `inputs` and from `stores` to `stores`. -/
structure Steady (inputs : Value → Prop) (stores : Store → Prop) : Prop where
  sequence : ∀ v, inputs v → v.IsSequence
  keeps : ∀ v s ds t, inputs v → stores s → step v s = .ok ds t →
    stores t ∧ ∀ d ∈ ds, inputs d.remainder

variable {step finish}
variable {inputs : Value → Prop} {stores : Store → Prop} {budget : Nat}

/-- The path one repetition further, where lengths are told by `measure`. -/
def Path.onward (measure : Value → Nat) (path : Path) (d : Derivation) : Path :=
  ⟨d.value :: path.values, d.remainder,
    if measure path.remainder ≤ measure d.remainder then 0 else measure d.remainder + 1⟩

theorem Path.extendAll_eq_map_onward {measure : Value → Nat} {results : Results} {path : Path}
    {ds : List Derivation} (before : path.remainder.length results = .ok (measure path.remainder))
    (left : ∀ d ∈ ds, d.remainder.length results = .ok (measure d.remainder)) :
    path.extendAll results ds = .ok (ds.map (path.onward measure)) := by
  induction ds with
  | nil => rfl
  | cons d ds ih =>
    have head : path.extend results d = .ok (path.onward measure d) := by
      simp only [Path.extend, left d List.mem_cons_self, before]
      rfl
    have tail := ih fun other member => left other (List.mem_cons_of_mem _ member)
    simp only [Path.extendAll] at tail ⊢
    rw [List.mapM_cons, head, tail]
    rfl

/-- What replaces a path on the agenda is lower. -/
theorem Path.onward_height_lt {measure : Value → Nat} {path : Path} {ds : List Derivation}
    (height : path.height = measure path.remainder + 1) :
    ∀ p ∈ ds.map (path.onward measure), p.height < path.height := by
  intro p member
  obtain ⟨d, _, rfl⟩ := List.mem_map.mp member
  rw [height]
  simp only [Path.onward]
  split <;> omega

/-- The path one repetition further, on plain sequences. -/
def Path.along (path : Path) (d : Derivation) : Path :=
  ⟨d.value :: path.values, d.remainder,
    if path.remainder.width ≤ d.remainder.width then 0 else d.remainder.width + 1⟩

theorem Path.extendAll_eq_map (results : Results) (path : Path) (ds : List Derivation)
    (before : path.remainder.IsSequence) (left : ∀ d ∈ ds, d.remainder.IsSequence) :
    path.extendAll results ds = .ok (ds.map path.along) :=
  Path.extendAll_eq_map_onward (Value.length_of_isSequence before results) fun d member =>
    Value.length_of_isSequence (left d member) results

/-- A path that has ended is taken off the agenda. -/
theorem explore_ended (path : Path) (rest : List Path) (out : List Derivation)
    (ended : path.height = 0) :
    explore step finish budget (path :: rest) out =
      liftM (finish path.values.reverse) >>= fun value =>
        explore step finish budget rest (⟨value, path.remainder⟩ :: out) := by
  rw [explore, if_pos ended]

/-- The heights of paths that are opened from an open path on a plain sequence are lower. -/
theorem Path.along_height_lt (path : Path) (ds : List Derivation)
    (height : path.height = path.remainder.width + 1) :
    ∀ p ∈ ds.map path.along, p.height < path.height :=
  Path.onward_height_lt height

theorem pathEnd_eq_ok_iff {values : List Value} {remainder : Value} {ds : List Derivation}
    {s t : Store} : pathEnd finish values remainder s = .ok ds t ↔
      ∃ v, finish values = .ok v ∧ ds = [⟨v, remainder⟩] ∧ s = t := by
  constructor
  · intro success
    obtain ⟨v, s', gathered, success⟩ := Eval.bind_eq_ok_iff.mp success
    obtain ⟨value, rfl⟩ := Eval.lift_eq_ok_iff.mp gathered
    obtain ⟨rfl, rfl⟩ := Eval.pure_eq_ok_iff.mp success
    exact ⟨v, value, rfl, rfl⟩
  · rintro ⟨v, value, rfl, rfl⟩
    exact Eval.bind_eq_ok_iff.mpr ⟨v, s, Eval.lift_eq_ok_iff.mpr ⟨value, rfl⟩, rfl⟩

private theorem Steady.keeps_followAll {n : Nat}
    (shorter : ∀ m < n, ∀ values v s ds t, v.width = m → inputs v → stores s →
      depthFirst step finish values v s = .ok ds t → stores t)
    {values : List Value} {v : Value} (width : v.width = n) (found : List Derivation)
    (left : ∀ d ∈ found, inputs d.remainder) {s t : Store} {ds : List Derivation}
    (start : stores s) (success : followAll step finish values v found s = .ok ds t) :
    stores t := by
  induction found generalizing s ds with
  | nil =>
    rw [followAll] at success
    obtain ⟨_, rfl⟩ := Eval.pure_eq_ok_iff.mp success
    exact start
  | cons d found ih =>
    rw [followAll] at success
    obtain ⟨here, s', first, success⟩ := Eval.bind_eq_ok_iff.mp success
    have between : stores s' := by
      split at first
      · obtain ⟨_, _, _, rfl⟩ := pathEnd_eq_ok_iff.mp first
        exact start
      · exact shorter _ (by omega) _ _ _ _ _ rfl (left d List.mem_cons_self) start first
    obtain ⟨others, s'', second, success⟩ := Eval.bind_eq_ok_iff.mp success
    obtain ⟨_, rfl⟩ := Eval.pure_eq_ok_iff.mp success
    exact ih (fun other member => left other (List.mem_cons_of_mem _ member)) between second

/-- Following repetitions leads from `stores` to `stores`. -/
theorem Steady.keeps_depthFirst (steady : Steady step inputs stores) (n : Nat) :
    ∀ values v s ds t, v.width = n → inputs v → stores s →
      depthFirst step finish values v s = .ok ds t → stores t := by
  induction n using Nat.strongRecOn with
  | ind n ih =>
    intro values v s ds t width input start success
    rw [depthFirst] at success
    obtain ⟨found, s', ran, success⟩ := Eval.bind_eq_ok_iff.mp success
    obtain ⟨start', left⟩ := steady.keeps _ _ _ _ input start ran
    split at success
    · split at success
      · obtain ⟨_, rfl⟩ := Eval.pure_eq_ok_iff.mp success
        exact start'
      · obtain ⟨_, _, _, rfl⟩ := pathEnd_eq_ok_iff.mp success
        exact start'
    · exact Steady.keeps_followAll ih width found left start' success

theorem Path.along_values (path : Path) (d : Derivation) :
    (path.along d).values.reverse = path.values.reverse ++ [d.value] := List.reverse_cons

/-- What `explore` does with an open path of a given width, in terms of the recursion. -/
def Explored (step : Value → Eval (List Derivation)) (finish : List Value → Except Error Value)
    (inputs : Value → Prop) (stores : Store → Prop) (budget n : Nat) : Prop :=
  ∀ path : Path, path.remainder.width = n → path.height = n + 1 → inputs path.remainder →
    ∀ rest out s, stores s →
      explore step finish budget (path :: rest) out s =
        (depthFirst step finish path.values.reverse path.remainder >>= fun ds =>
          explore step finish budget rest (ds.reverse ++ out)) s

private theorem explore_along {path : Path}
    (shorter : ∀ m < path.remainder.width, Explored step finish inputs stores budget m)
    (d : Derivation) (left : inputs d.remainder) (rest : List Path) (out : List Derivation)
    {s : Store} (start : stores s) :
    explore step finish budget (path.along d :: rest) out s =
      ((if path.remainder.width ≤ d.remainder.width
        then pathEnd finish (path.values.reverse ++ [d.value]) d.remainder
        else depthFirst step finish (path.values.reverse ++ [d.value]) d.remainder) >>= fun ds =>
          explore step finish budget rest (ds.reverse ++ out)) s := by
  by_cases stuck : path.remainder.width ≤ d.remainder.width
  · rw [explore_ended _ _ _ (if_pos stuck), if_pos stuck, pathEnd, bind_assoc, Path.along_values]
    simp only [pure_bind, List.reverse_singleton, List.singleton_append]
    rfl
  · rw [if_neg stuck, ← Path.along_values]
    exact shorter _ (Nat.lt_of_not_le stuck) _ rfl (if_neg stuck) left rest out s start

private theorem Steady.explore_append (steady : Steady step inputs stores) {path : Path}
    (shorter : ∀ m < path.remainder.width, Explored step finish inputs stores budget m)
    (found : List Derivation) (left : ∀ d ∈ found, inputs d.remainder) (rest : List Path) :
    ∀ out s, stores s →
      explore step finish budget (found.map path.along ++ rest) out s =
        (followAll step finish path.values.reverse path.remainder found >>= fun ds =>
          explore step finish budget rest (ds.reverse ++ out)) s := by
  induction found with
  | nil =>
    intro out s start
    rw [followAll]
    rfl
  | cons d found ih =>
    intro out s start
    have tail := ih fun other member => left other (List.mem_cons_of_mem _ member)
    rw [List.map_cons, List.cons_append, followAll, bind_assoc,
      explore_along shorter d (left d List.mem_cons_self) _ _ start]
    apply Eval.bind_congr
    intro here s' ran
    have between : stores s' := by
      split at ran
      · obtain ⟨_, _, _, rfl⟩ := pathEnd_eq_ok_iff.mp ran
        exact start
      · exact steady.keeps_depthFirst _ _ _ _ _ _ rfl (left d List.mem_cons_self) start ran
    rw [tail _ _ between, bind_assoc]
    simp only [pure_bind, List.reverse_append, List.append_assoc]

/-- An open path on top of the agenda is explored to the end of all its continuations, before
anything else is. -/
theorem Steady.explored (steady : Steady step inputs stores) (n : Nat) :
    Explored step finish inputs stores budget n := by
  induction n using Nat.strongRecOn with
  | ind n ih =>
    intro path width height input rest out s start
    rw [explore, depthFirst, if_neg (by omega), bind_assoc]
    apply Eval.bind_congr
    intro found s' ran
    obtain ⟨start', left⟩ := steady.keeps _ _ _ _ input start ran
    have all := steady.explore_append (width ▸ ih) found left rest out s' start'
    by_cases none : found.isEmpty
    · rw [if_pos none, if_pos none, List.isEmpty_reverse]
      by_cases first : path.values.isEmpty
      · rw [if_pos first, if_pos first]
        rfl
      · rw [if_neg first, if_neg first, pathEnd, bind_assoc]
        simp only [pure_bind, List.reverse_singleton, List.singleton_append]
    · have opened := path.extendAll_eq_map s'.results found (steady.sequence _ input)
        fun d member => steady.sequence _ (left d member)
      have low := path.along_height_lt found (width ▸ height)
      rw [if_neg none, if_neg none, ← all, Eval.readResults_bind]
      rw [Eval.lift_bind opened, dif_pos low]

/-- The agenda and the recursion agree on every input and in every store that the step is steady
for. -/
theorem Steady.repeatParser_eq {accumulate : Value}
    (steady : Steady step inputs stores) {input : Value} (first : inputs input) {s : Store}
    (start : stores s) :
    repeatParser step accumulate budget input s =
      depthFirst step (accumulateValues accumulate) [] input s := by
  have height : (Path.start s.results input).height = input.width + 1 := by
    simp only [Path.start, Value.length_of_isSequence (steady.sequence _ first)]
  rw [repeatParser, Eval.readResults_bind,
    steady.explored _ (Path.start s.results input) rfl height first [] [] s start]
  change (depthFirst _ _ _ _ >>= fun ds => _) s = _
  simp only [explore, List.append_nil, List.reverse_reverse, bind_pure]
  rfl

/-- What splitting an input leaves is a slice of it. -/
theorem isSequence_of_splitAt {results : Results} {input : Value} (sizes : List Value) :
    ∀ ds, Evaluator.splitAt results input sizes = .ok ds → ∀ d ∈ ds, d.remainder.IsSequence := by
  induction sizes with
  | nil =>
    intro ds split d member
    cases split
    cases member
  | cons n sizes ih =>
    intro ds split d member
    obtain ⟨length, _, split⟩ := Except.bind_eq_ok_iff.mp split
    obtain ⟨fitting, _, split⟩ := Except.bind_eq_ok_iff.mp split
    split at split
    · obtain ⟨before, _, split⟩ := Except.bind_eq_ok_iff.mp split
      obtain ⟨after, cut, split⟩ := Except.bind_eq_ok_iff.mp split
      obtain ⟨others, rest, split⟩ := Except.bind_eq_ok_iff.mp split
      cases split
      rcases List.mem_cons.mp member with rfl | other
      · exact Value.isSequence_of_slice cut
      · exact ih others rest d other
    · exact ih ds split d member

/-- Parsers that split their input are ambiguous, and leave plain sequences. -/
theorem maintains_parse_splits {I : Store → Prop} (quiet : Store.Quiet I) (n : Nat)
    (sizes : List Value) (v : Value) :
    Eval.Maintains I ((evaluator n).parse (.ofShape (.splits sizes)) v)
      fun ds => ∀ d ∈ ds, d.remainder.IsSequence := by
  cases n with
  | zero => exact Eval.Maintains.throw _
  | succ n =>
    have produced : Eval.Maintains I ((evaluator n).produce (.ofShape (.splits sizes)) v)
        fun ds => ∀ d ∈ ds, d.remainder.IsSequence := by
      rw [Evaluator.produce_of_mapping_eq_none rfl]
      exact Eval.Maintains.readResults.bind fun _ _ => Eval.Maintains.lift (isSequence_of_splitAt _)
    exact Evaluator.maintains_use quiet produced

/-- A lazy parser leads to plain sequences where its definition is a parser that splits its
input. -/
theorem steady_lazy_splits (n address : Nat) (sizes : List Value) :
    Steady ((evaluator n).parse (.ofShape (.lazy address))) Value.IsSequence
      fun s => (s.cellAt address).definition = some (.ofShape (.splits sizes)) where
  sequence _ plain := plain
  keeps v s ds t _ defined ran := by
    have quiet : Store.Quiet fun s =>
        (s.cellAt address).definition = some (.ofShape (.splits sizes)) :=
      fun _ _ defined => defined
    cases n with
    | zero => cases ran
    | succ n =>
      have produced : Eval.Maintains
          (fun s => (s.cellAt address).definition = some (.ofShape (.splits sizes)))
          ((evaluator n).produce (.ofShape (.lazy address)) v)
          fun ds => ∀ d ∈ ds, d.remainder.IsSequence := by
        rw [Evaluator.produce_of_mapping_eq_none rfl, Evaluator.process_of_lazy rfl]
        intro s ds t defined ran
        rw [Eval.bind_of_eq_ok (Evaluator.resolve_of_defined defined _ _)] at ran
        exact maintains_parse_splits quiet n sizes v s ds t defined ran
      exact Evaluator.maintains_use quiet produced s ds t defined ran

/-- With every use recorded before it takes place, a step leads where it led before. -/
theorem Steady.recording (steady : Steady step inputs stores) (quiet : Store.Quiet stores)
    (note : Value → Answer) :
    Steady (fun v => do Store.record (note v); step v) inputs stores where
  sequence := steady.sequence
  keeps v s ds t input start ran := by
    obtain ⟨_, s', recorded, ran⟩ := Eval.bind_eq_ok_iff.mp ran
    cases recorded
    exact steady.keeps v _ ds t input (quiet s _ start) ran

/-- Repetition is the recursion: the same derivations in the same order, the same effects, and the
same error, for whatever the evaluator makes of the repeated parser, from every store and on every
input from which it leads to plain sequences only. That the parser is used on the same remainders
in the same order is the second part: with every use recorded, by whatever `note` makes of its
input, the two still agree. -/
theorem process_many_eq_depthFirst (ev : Evaluator) (q : Parser) (accumulate : Value)
    (mapping name : Option Value) (steady : Steady (ev.parse q) inputs stores)
    {input : Value} (first : inputs input) {s : Store} (start : stores s) :
    ev.process (.node (.many q accumulate) mapping name) input s =
        depthFirst (ev.parse q) (accumulateValues accumulate) [] input s ∧
      (Store.Quiet stores → ∀ note : Value → Answer,
        repeatParser (fun v => do Store.record (note v); ev.parse q v) accumulate ev.fuel input s =
          depthFirst (fun v => do Store.record (note v); ev.parse q v)
            (accumulateValues accumulate) [] input s) :=
  ⟨steady.repeatParser_eq first start,
    fun quiet note => (steady.recording quiet note).repeatParser_eq first start⟩

/-- A lazy parser whose definition is ambiguous, repeated: each of the ways to split a text is
followed in turn. -/
theorem process_many_splits :
    let s := Store.initial.addCell none |>.settle 0 (.ofShape (.splits [.int 1, .int 2]))
    (evaluator 3).process
        (.node (.many (.ofShape (.lazy 0)) (.strategy .sequence)) none none)
        (.text ['a', 'a', 'b']) s =
      depthFirst ((evaluator 3).parse (.ofShape (.lazy 0)))
        (accumulateValues (.strategy .sequence)) [] (.text ['a', 'a', 'b']) s :=
  (process_many_eq_depthFirst (evaluator 3) (.ofShape (.lazy 0)) (.strategy .sequence) none none
    (steady_lazy_splits 3 0 [.int 1, .int 2])
    (show Value.IsSequence (.text ['a', 'a', 'b']) from trivial) rfl).1

end GrammarKit
