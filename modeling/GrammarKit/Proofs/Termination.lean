import GrammarKit.Proofs.Comparison.Deeper
import GrammarKit.Proofs.DepthFirst

/-! # Repetitions come to an end

A repetition ends if the repeated parser does, whatever that leaves of its input and whatever else
it does. A step from an open path leads to paths that are lower, since only a remainder that is
shorter than the one before leaves a path open. And a path has no more values than its height has
become lower by, so none has more of them than the input has items, and one.
-/

namespace GrammarKit

/-- Whether a parser comes to an end, with derivations, on each of some inputs in each of some
stores, and leaves only such inputs and such stores. -/
def Parser.EndsOn (p : Parser) (inputs : Value → Prop) (stores : Store → Prop) : Prop :=
  ∀ v s, inputs v → stores s → ∃ n ds t, (evaluator n).parse p v s = .ok ds t ∧ stores t ∧
    ∀ d ∈ ds, inputs d.remainder

/-- Whether the inputs have lengths that do not change from store to store. -/
def Value.HasExtent (extent : Value → Nat) (inputs : Value → Prop) (stores : Store → Prop) : Prop :=
  ∀ v s, inputs v → stores s → v.length s.results = .ok (extent v)

/-- Whether a derivation has the end of a path with at least one value and at most `limit`. -/
def Gathered (finish : List Value → Except Error Value) (limit : Nat) (d : Derivation) : Prop :=
  ∃ vs, finish vs = .ok d.value ∧ 1 ≤ vs.length ∧ vs.length ≤ limit

section

variable {inputs : Value → Prop} {stores : Store → Prop} {extent : Value → Nat} {limit : Nat}

/-! ## What is on the agenda -/

/-- What holds of every path on the agenda: it has values already if it has ended, it is as high as
there are items left if it has not, and its values and its height keep to a limit together. -/
structure Path.Bounded (inputs : Value → Prop) (extent : Value → Nat) (limit : Nat) (path : Path) :
    Prop where
  input : inputs path.remainder
  height : path.height = 0 ∧ path.values ≠ [] ∨ path.height = extent path.remainder + 1
  within : path.values.length + path.height ≤ limit

/-- The path before the first repetition. -/
theorem Path.bounded_start {x : Value} (input : inputs x) :
    Path.Bounded inputs extent (extent x + 1) ⟨[], x, extent x + 1⟩ :=
  ⟨input, .inr rfl, Nat.le_of_eq (Nat.zero_add _)⟩

namespace Path.Bounded

variable {path : Path} {d : Derivation}

/-- An open path is as high as there are items left. -/
theorem height_eq (bounded : path.Bounded inputs extent limit) (opened : path.height ≠ 0) :
    path.height = extent path.remainder + 1 :=
  bounded.height.resolve_left fun ended => opened ended.1

/-- A step leads to a path with one value more, which is lower in return. -/
theorem onward (bounded : path.Bounded inputs extent limit) (opened : path.height ≠ 0)
    (left : inputs d.remainder) : (path.onward extent d).Bounded inputs extent limit := by
  have height := bounded.height_eq opened
  have within := bounded.within
  refine ⟨left, ?_, ?_⟩
  · by_cases stuck : extent path.remainder ≤ extent d.remainder
    · exact .inl ⟨if_pos stuck, List.cons_ne_nil _ _⟩
    · exact .inr (if_neg stuck)
  · simp only [Path.onward, List.length_cons]
    split <;> omega

/-- The values of a path that has some. -/
theorem length_values (bounded : path.Bounded inputs extent limit) (some_ : path.values ≠ []) :
    1 ≤ path.values.reverse.length ∧ path.values.reverse.length ≤ limit := by
  have within := bounded.within
  have positive := List.length_pos_iff.mpr some_
  rw [List.length_reverse]
  omega

end Path.Bounded

/-! ## What the exploration of an agenda comes to -/

/-- Whether the exploration of an agenda comes to one end from some depth on, with any budget: to
derivations at the ends of paths, or to an error of gathering the values of a path. -/
def Explores (p : Parser) (finish : List Value → Except Error Value) (stores : Store → Prop)
    (limit : Nat) (agenda : List Path) (out : List Derivation) (s : Store) : Prop :=
  ∃ (r : Except Error (List Derivation)) (t : Store), stores t ∧
    (∀ ds, r = .ok ds → ∀ d ∈ ds, Gathered finish limit d) ∧
    (∀ e, r = .error e → ∃ vs, finish vs = .error e) ∧
    Deep fun m => ∀ budget, explore ((evaluator m).parse p) finish budget agenda out s =
      (liftM r : Eval (List Derivation)) t

namespace Explores

variable {p : Parser} {finish : List Value → Except Error Value} {agenda rest : List Path}
  {out : List Derivation} {s t : Store}

/-- Nothing is left to be explored. -/
theorem nil (start : stores s) (all : ∀ d ∈ out, Gathered finish limit d) :
    Explores p finish stores limit [] out s := by
  refine ⟨.ok out.reverse, s, start, ?_, nofun, .always fun m budget => ?_⟩
  · rintro _ ⟨⟩ d member
    exact all d (List.mem_reverse.mp member)
  · rw [explore]
    rfl

/-- The rest of the exploration is that of another agenda. -/
theorem of_rest {agenda' : List Path} {out' : List Derivation}
    (explores : Explores p finish stores limit agenda' out' t)
    (same : Deep fun m => ∀ budget, explore ((evaluator m).parse p) finish budget agenda out s =
      explore ((evaluator m).parse p) finish budget agenda' out' t) :
    Explores p finish stores limit agenda out s := by
  obtain ⟨r, u, after, gathered, failed, deep⟩ := explores
  exact ⟨r, u, after, gathered, failed, same.both deep fun m same here budget =>
    (same budget).trans (here budget)⟩

/-- The rest of the exploration begins with the end of a path. -/
theorem of_end {vs : List Value} {remainder : Value} (after : stores t)
    (others : ∀ v, finish vs = .ok v →
      Explores p finish stores limit rest (⟨v, remainder⟩ :: out) t)
    (same : Deep fun m => ∀ budget, explore ((evaluator m).parse p) finish budget agenda out s =
      (liftM (finish vs) >>= fun v =>
        explore ((evaluator m).parse p) finish budget rest (⟨v, remainder⟩ :: out)) t) :
    Explores p finish stores limit agenda out s := by
  cases found : finish vs with
  | ok v =>
    refine (others v found).of_rest (same.mono fun m same budget => ?_)
    rw [same, found]
    rfl
  | error e =>
    refine ⟨.error e, t, after, nofun, ?_, same.mono fun m same budget => ?_⟩
    · rintro _ ⟨⟩
      exact ⟨vs, found⟩
    · rw [same, found]
      rfl

end Explores

/-- The loop comes to an end from every agenda of bounded paths: a step replaces a path by paths
that are bounded again, but lower. -/
theorem Parser.EndsOn.explores {p : Parser} {finish : List Value → Except Error Value}
    (ends : p.EndsOn inputs stores) (lengths : Value.HasExtent extent inputs stores)
    (agenda : List Path) :
    (∀ path ∈ agenda, path.Bounded inputs extent limit) → ∀ out s, stores s →
      (∀ d ∈ out, Gathered finish limit d) → Explores p finish stores limit agenda out s := by
  induction agenda using Path.replaces_wellFounded.induction with
  | h agenda ih =>
    intro bounded out s start all
    cases agenda with
    | nil => exact .nil start all
    | cons path rest =>
      obtain ⟨here, others⟩ := List.forall_mem_cons.mp bounded
      have go_on := ih rest (Path.replaces_tail path rest) others
      -- What follows the end of a path that has values.
      have closed (some_ : path.values ≠ []) (t : Store) (after : stores t) (v : Value)
          (value : finish path.values.reverse = .ok v) :
          Explores p finish stores limit rest (⟨v, path.remainder⟩ :: out) t :=
        go_on _ t after
          (List.forall_mem_cons.mpr ⟨⟨_, value, here.length_values some_⟩, all⟩)
      by_cases ended : path.height = 0
      · have some_ := (here.height.resolve_right (by omega)).2
        refine .of_end start (closed some_ s start) (.always fun m budget => ?_)
        rw [explore_ended path rest out ended]
      · obtain ⟨n, ds, t, found, after, left⟩ := ends path.remainder s here.input start
        have deep : Deep fun m => (evaluator m).parse p path.remainder s = .ok ds t :=
          (Evaluator.parse_lasts fun u same => by rw [found] at same; cases same).mono
            fun m same => same.trans found
        by_cases none : ds = []
        · subst none
          by_cases first : path.values = []
          · refine (go_on out t after all).of_rest (deep.mono fun m found budget => ?_)
            rw [explore, if_neg ended, Eval.bind_of_eq_ok found, if_pos List.isEmpty_nil,
              if_pos (by simpa using first)]
          · refine .of_end after (closed first t after) (deep.mono fun m found budget => ?_)
            rw [explore, if_neg ended, Eval.bind_of_eq_ok found, if_pos List.isEmpty_nil,
              if_neg (by simpa using first)]
        · have height := here.height_eq ended
          have low : ∀ q ∈ ds.map (path.onward extent), q.height < path.height :=
            Path.onward_height_lt height
          have opened : path.extendAll t.results ds = .ok (ds.map (path.onward extent)) :=
            Path.extendAll_eq_map_onward (lengths _ t here.input after)
              fun d member => lengths _ t (left d member) after
          have further : ∀ q ∈ ds.map (path.onward extent) ++ rest,
              q.Bounded inputs extent limit := by
            refine List.forall_mem_append.mpr ⟨List.forall_mem_map.mpr fun d member => ?_, others⟩
            exact here.onward ended (left d member)
          refine (ih _ ⟨path, rest, _, rfl, rfl, low⟩ further out t after all).of_rest
            (deep.mono fun m found budget => ?_)
          rw [explore, if_neg ended, Eval.bind_of_eq_ok found, if_neg (by simpa using none),
            Eval.readResults_bind, Eval.lift_bind opened, dif_pos low]

/-- Repetitions come to an end if the repeated parser does on everything that it leaves, whatever
that has to do with its input: from some depth on there is one outcome, with any budget, which is an
error only if values cannot be joined. Lists of values have at least one item and at most one more
than the input. -/
theorem repetition_ends {p : Parser} (ends : p.EndsOn inputs stores)
    (lengths : Value.HasExtent extent inputs stores) {x : Value} (input : inputs x) {s : Store}
    (start : stores s) (accumulate : Value) :
    ∃ (r : Except Error (List Derivation)) (t : Store), stores t ∧
      (Deep fun m => ∀ budget, repeatParser ((evaluator m).parse p) accumulate budget x s =
        (liftM r : Eval (List Derivation)) t) ∧
      (Deep fun m => ∀ mapping name, (evaluator m).process (.node (.many p accumulate) mapping name)
        x s = (liftM r : Eval (List Derivation)) t) ∧
      (∀ e, r = .error e → ∃ vs, accumulateValues accumulate vs = .error e) ∧
      (accumulate = .strategy .sequence → ∃ ds, r = .ok ds ∧ ∀ d ∈ ds, ∃ vs, d.value = .list vs ∧
        1 ≤ vs.length ∧ vs.length ≤ extent x + 1) := by
  have explores : Explores p (accumulateValues accumulate) stores (extent x + 1)
      [⟨[], x, extent x + 1⟩] [] s :=
    ends.explores lengths _ (List.forall_mem_singleton.mpr (Path.bounded_start input)) [] s start
      (List.forall_mem_nil _)
  obtain ⟨r, t, after, gathered, failed, deep⟩ := explores
  have whole : Deep fun m => ∀ budget, repeatParser ((evaluator m).parse p) accumulate budget x s =
      (liftM r : Eval (List Derivation)) t := by
    refine deep.mono fun m here budget => ?_
    have begins : Path.start s.results x = ⟨[], x, extent x + 1⟩ := by
      rw [Path.start, lengths x s input start]
    rw [repeatParser, Eval.readResults_bind, begins, here]
  refine ⟨r, t, after, whole, whole.mono fun m here _ _ => here _, failed, ?_⟩
  rintro rfl
  cases r with
  | ok ds =>
    refine ⟨ds, rfl, fun d member => ?_⟩
    obtain ⟨vs, value, bounds⟩ := gathered ds rfl d member
    exact ⟨vs, (Except.ok.inj value).symm, bounds⟩
  | error e =>
    obtain ⟨vs, raised⟩ := failed e rfl
    cases raised

end

/-- A parser that does not look at its input and leaves a text of four items, or one of one item. -/
def fourOrOne : Parser :=
  .ofShape (.emit [.tuple [.text ['x'], .text ['a', 'a', 'a', 'a']],
    .tuple [.text ['y'], .text ['a']]])

theorem fourOrOne_endsOn : fourOrOne.EndsOn Value.IsSequence fun s => s.debug = false := by
  intro v s _ quiet
  refine ⟨1, [⟨.text ['x'], .text ['a', 'a', 'a', 'a']⟩, ⟨.text ['y'], .text ['a']⟩], s, ?_, quiet,
    by simp [Value.IsSequence]⟩
  have read : (get : Eval Store) s = .ok s s := rfl
  change ((evaluator 0).use fourOrOne v) s = _
  rw [Evaluator.use, if_neg (by simp [fourOrOne, Parser.isForeign, Parser.ofShape]),
    Eval.bind_of_eq_ok read, quiet]
  rfl

/-- From two items on, its repetitions have three values at most. -/
theorem fourOrOne_repetition_ends : ∃ (ds : List Derivation) (t : Store),
    (Deep fun m => ∀ budget, repeatParser ((evaluator m).parse fourOrOne) (.strategy .sequence)
      budget (.text ['b', 'b']) Store.initial = .ok ds t) ∧
    ∀ d ∈ ds, ∃ vs, d.value = .list vs ∧ 1 ≤ vs.length ∧ vs.length ≤ 3 := by
  have lengths : Value.HasExtent Value.width Value.IsSequence fun s => s.debug = false :=
    fun _ s sequence _ => Value.length_of_isSequence sequence s.results
  obtain ⟨_, t, _, deep, _, _, lists⟩ := repetition_ends fourOrOne_endsOn lengths
    (x := .text ['b', 'b']) trivial (s := Store.initial) rfl (.strategy .sequence)
  obtain ⟨ds, rfl, all⟩ := lists rfl
  exact ⟨ds, t, deep, all⟩

end GrammarKit
