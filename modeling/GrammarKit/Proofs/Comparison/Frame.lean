import GrammarKit.Proofs.Comparison.Deeper
import GrammarKit.Proofs.Comparison.Sound

/-! # What evaluations leave as it is

However an evaluation ends, it leaves some things as they were: whether debug messages are recorded,
and, unless it appends to result lists, what the result lists hold that there were before. A `Frame`
says what is left as it is; it is enough to look at the few operations that change result lists.
This holds of single evaluations from every store, so the others that a comparison would look at are
left aside, and so are bounds.
-/

namespace GrammarKit

/-- What is left as it is from one store to a later one: something about result lists and about
whether debug messages are recorded. -/
structure Frame where
  Leaves : Store → Store → Prop
  trans : ∀ {s t u}, Leaves s t → Leaves t u → Leaves s u
  others : ∀ {s t}, t.results = s.results → t.debug = s.debug → Leaves s t
  newResult : ∀ {s} ds, Leaves s { s with results := s.results.push ds }
  withDebug : ∀ {s t}, Leaves { s with debug := true } t → Leaves s { t with debug := s.debug }
  /-- Whether result lists may be appended to. -/
  mayAppend : Prop
  append : mayAppend → ∀ {s} address ds,
    Leaves s { s with results := s.results.write address ds }

namespace Frame

variable (frame : Frame) {α β : Type}

/-- Whether an evaluation leaves what a frame says, however it ends; `Q` says what value it gives.
-/
def Holds (x : Eval α) (Q : α → Prop) : Prop :=
  ∀ s, frame.Leaves s (Eval.afterwards (x s)) ∧ ∀ a t, x s = .ok a t → Q a

namespace Holds

variable {frame} {x y : Eval α} {P Q : α → Prop} {R : β → Prop}

theorem bind {f : α → Eval β} (first : frame.Holds x P) (second : ∀ a, P a → frame.Holds (f a) R) :
    frame.Holds (x >>= f) R := by
  intro s
  obtain ⟨left, value⟩ := first s
  cases found : x s with
  | ok a t =>
    rw [found] at left
    obtain ⟨left', value'⟩ := second a (value a t found) t
    rw [Eval.bind_of_eq_ok found]
    exact ⟨frame.trans left left', value'⟩
  | error stop t =>
    rw [found] at left
    rw [Eval.bind_of_eq_error found]
    exact ⟨left, nofun⟩

theorem pure {a : α} (holds : Q a) : frame.Holds (Pure.pure a) Q :=
  fun _ => ⟨frame.others rfl rfl, fun _ _ success =>
    (Eval.pure_eq_ok_iff.mp success).1 ▸ holds⟩

theorem throw (stop : Stop) : frame.Holds (MonadExcept.throw stop : Eval α) Q :=
  fun _ => ⟨frame.others rfl rfl, nofun⟩

theorem raise (e : Error) : frame.Holds (GrammarKit.raise e : Eval α) Q := throw (.error e)

/-- What an evaluation reads off the store and makes of it. -/
theorem step {f : Store → α} {g : Store → Store} (is : ∀ s, x s = .ok (f s) (g s))
    (left : ∀ s, frame.Leaves s (g s)) (holds : ∀ s, Q (f s)) : frame.Holds x Q := by
  intro s
  rw [is]
  refine ⟨left s, ?_⟩
  rintro _ _ ⟨⟩
  exact holds s

/-- What is computed from a store. -/
theorem observe {f : Store → Except Stop α} (is : ∀ s, x s = (liftM (f s) : Eval α) s) :
    frame.Holds x fun _ => True := by
  intro s
  rw [is]
  refine ⟨?_, fun _ _ _ => trivial⟩
  cases f s <;> exact frame.others rfl rfl

theorem withDebug (inside : frame.Holds x Q) : frame.Holds (Store.withDebug x) Q := by
  intro s
  obtain ⟨left, value⟩ := inside { s with debug := true }
  unfold Store.withDebug
  dsimp only
  cases found : x { s with debug := true } with
  | ok a t =>
    rw [found] at left
    refine ⟨frame.withDebug left, ?_⟩
    rintro _ _ ⟨⟩
    exact value a t found
  | error stop t =>
    rw [found] at left
    exact ⟨frame.withDebug left, nofun⟩

theorem supply {address : Nat} (called : frame.Holds x Q) :
    frame.Holds (Store.supply address x) Q := by
  intro s
  obtain ⟨left, value⟩ := called (s.note address .called)
  have before : frame.Leaves s (s.note address .called) := frame.others rfl rfl
  unfold Store.supply
  cases found : x (s.note address .called) with
  | ok a t =>
    rw [found] at left
    refine ⟨frame.trans (frame.trans before left) (frame.others rfl rfl), ?_⟩
    rintro _ _ ⟨⟩
    exact value a t found
  | error stop t =>
    rw [found] at left
    exact ⟨frame.trans (frame.trans before left) (frame.others rfl rfl), nofun⟩

theorem branch (yes : frame.Holds x Q) (no : frame.Holds y Q) :
    frame.Holds (do if (← get).debug then x else y) Q := by
  intro s
  rw [Eval.branch_apply]
  split
  · exact yes s
  · exact no s

theorem describe (ev : Evaluator) (v : Value) : frame.Holds (ev.describe v) fun _ => True :=
  observe (f := fun s => Value.display s.results.unlimited ev.fuel v) fun _ => rfl

theorem log (message : List Char) : frame.Holds (Evaluator.log message) fun _ => True :=
  step (f := fun _ => ()) (fun _ => rfl) (fun _ => frame.others rfl rfl) fun _ => trivial

/-- The messages around a use have no part in it. -/
theorem use {ev : Evaluator} {p : Parser} {input : Value} {Q : List Derivation → Prop}
    (produced : frame.Holds (ev.produce p input) Q) : frame.Holds (ev.use p input) Q := by
  unfold Evaluator.use
  split
  · exact raise _
  · refine branch ?_ produced
    refine bind (P := fun _ => True) ?_ fun _ _ => ?_
    · exact (describe ev _).bind fun _ _ => (describe ev _).bind fun _ _ => log _
    · refine produced.bind fun found holds => ?_
      exact ((describe ev _).bind fun _ _ => log _).bind fun _ _ => pure holds

theorem resolve {ev : Evaluator} {address : Nat} {owner : Value}
    (calls : ∀ f (arguments : List Value), frame.Holds (ev.call f arguments) fun _ => True) :
    frame.Holds (ev.resolve address owner) fun _ => True := by
  have read : frame.Holds (Store.readCell address) fun _ => True :=
    step (g := id) (fun _ => rfl) (fun _ => frame.others rfl rfl) fun _ => trivial
  refine read.bind fun cell _ => ?_
  cases cell.definition with
  | some q => exact pure trivial
  | none =>
    cases cell.factory with
    | none => exact raise _
    | some factory =>
      refine (supply (calls factory _)).bind fun v _ => ?_
      have settled :
          frame.Holds (Store.defineCell address (Parser.asParser v)) fun _ => True :=
        step (f := fun _ => ()) (fun _ => rfl)
          (fun s => frame.others (s.results_settle address _) (s.debug_settle address _))
          fun _ => trivial
      refine settled.bind fun _ _ => branch ?_ (pure trivial)
      have told : frame.Holds (modify (Store.note address .told) : Eval Unit) fun _ => True :=
        step (f := fun _ => ()) (fun _ => rfl) (fun _ => frame.others rfl rfl) fun _ => trivial
      refine bind (P := fun _ => True) ?_ fun _ _ => pure trivial
      exact (describe ev owner).bind fun _ _ => (log _).bind fun _ _ => told

end Holds

/-- What is left as it is, as a comparison. -/
def comparison (frame : Frame) : Comparison where
  World := Unit
  bounds _ := .unlimited
  Later _ _ := True
  holds _ x _ Q := frame.Holds x (Q ())
  mayAppend := frame.mayAppend
  mayTrace := True
  mayName _ := True

theorem lawful : frame.comparison.Lawful where
  refl _ := trivial
  trans _ _ := trivial
  wider _ := ⟨fun _ _ => trivial, fun _ _ => trivial⟩
  name _ _ _ := trivial
  deepen _ _ _ holds := holds
  pure holds := .pure holds
  bind first second := first.bind fun a holds => second () a trivial holds
  raise e := .raise e
  outOfFuel := .throw _
  withDebug inside := inside.withDebug
  reading next _ := by
    have read : frame.Holds Store.readResults fun _ => True :=
      .step (g := id) (fun _ => rfl) (fun _ => frame.others rfl rfl) fun _ => trivial
    exact read.bind fun results _ => next results fun _ _ _ _ => Value.within_unlimited _
  newResult _ := .step (fun _ => rfl) (fun _ => frame.newResult _) fun _ =>
    Value.within_unlimited _
  append may _ _ _ := .step (f := fun _ => ()) (fun _ => rfl) (fun _ => frame.append may _ _)
    fun _ => ⟨rfl, trivial⟩
  newCell _ := .step (fun _ => rfl) (fun _ => frame.others rfl rfl) fun _ => ⟨rfl, trivial⟩
  readCell := .step (g := id) (fun _ => rfl) (fun _ => frame.others rfl rfl) fun _ =>
    ⟨rfl, fun _ _ => Parser.within_unlimited _⟩
  define {_ address v} _ := by
    intro s
    rw [Evaluator.define_apply]
    split
    · exact ⟨frame.others rfl rfl, nofun⟩
    · exact ⟨frame.others (s.results_settle address _) (s.debug_settle address _),
        fun _ _ _ => ⟨rfl, trivial⟩⟩
  lookUp {_ name} := by
    intro s
    rw [Evaluator.lookUp_nil]
    cases s.globals.lookup name with
    | none => exact ⟨frame.others rfl rfl, nofun⟩
    | some v => exact ⟨frame.others rfl rfl, fun _ _ _ => ⟨rfl, Value.within_unlimited _⟩⟩
  record _ := .step (f := fun _ => ()) (fun _ => rfl) (fun _ => frame.others rfl rfl)
    fun _ => ⟨rfl, trivial⟩
  snapshot {_ ev _ v} _ _ := fun s =>
    ⟨(Holds.observe (f := fun s => Value.snapshot s ev.fuel v) (fun _ => rfl) s).1,
      fun _ _ _ => ⟨rfl, trivial⟩⟩
  resolve {_ ev _ address owner} tracks _ := by
    have resolved : frame.Holds (ev.resolve address owner) fun _ => True :=
      .resolve fun f arguments s =>
        ⟨(tracks.call () f arguments (Value.within_unlimited _) (fun _ _ =>
          Value.within_unlimited _) s).1, fun _ _ _ => trivial⟩
    exact fun s => ⟨(resolved s).1, fun _ _ _ => Parser.within_unlimited _⟩

theorem uses : frame.comparison.Uses := fun _ _ _ produced => Holds.use (produced () trivial)

/-- That debug messages are recorded or not is left as it is. -/
def recording : Frame where
  Leaves s t := t.debug = s.debug
  trans first second := second.trans first
  others _ same := same
  newResult _ := rfl
  withDebug _ := rfl
  mayAppend := True
  append _ _ _ _ := rfl

end Frame

/-- However the use of a parser ends, messages are recorded afterwards iff they were before. -/
theorem Evaluator.debug_parse (n : Nat) (p : Parser) (input : Value) (s : Store) :
    (Eval.afterwards ((evaluator n).parse p input s)).debug = s.debug :=
  ((Frame.recording.lawful.tracks_evaluator Frame.recording.uses trivial trivial
    (fun _ => trivial) n).parse () p input (Parser.within_unlimited p)
      (Value.within_unlimited input) s).1

/-! ## Result lists that nothing is appended to -/

/-- Whether the result lists that there are go on holding what they hold. -/
structure Results.Kept (results later : Results) : Prop where
  size : results.size ≤ later.size
  read : ∀ address, address < results.size → later.read address = results.read address

namespace Results.Kept

variable {results later last : Results}

theorem trans (first : results.Kept later) (second : later.Kept last) : results.Kept last :=
  ⟨Nat.le_trans first.size second.size, fun address inside =>
    (second.read address (Nat.lt_of_lt_of_le inside first.size)).trans (first.read address inside)⟩

theorem push (results : Results) (ds : List Derivation) : results.Kept (results.push ds) := by
  refine ⟨by simp, fun address inside => ?_⟩
  rw [Results.read_push, if_neg (Nat.ne_of_lt inside)]

end Results.Kept

/-- Result lists are left as they are, unless they are appended to. -/
def Frame.results : Frame where
  Leaves s t := s.results.Kept t.results
  trans first second := first.trans second
  others same _ := ⟨Nat.le_of_eq (congrArg _ same.symm), fun _ _ => by rw [same]⟩
  newResult ds := .push _ ds
  withDebug left := left
  mayAppend := False
  append := False.elim

/-- Goes no further where a result list would be appended to. -/
def Watch.withoutAppending : Watch where
  operation ev operation arguments :=
    if operation.appends arguments then throw .outOfFuel else ev.applyOperation operation arguments

namespace Comparison.Lawful

variable {c : Comparison} (lawful : c.Lawful) (uses : c.Uses) (trace : c.mayTrace)
  (name : ∀ v, c.mayName v)

include lawful uses trace name

theorem respects_withoutAppending : c.Respects .withoutAppending {} := by
  refine ⟨fun tracks parser read => lawful.parse uses tracks parser read,
    fun tracks function all => lawful.apply tracks function all, ?_,
    fun _ => lawful.record trace⟩
  intro w ev E operation arguments tracks all
  by_cases appends : operation.appends arguments = true
  · simp only [Watch.withoutAppending, if_pos appends]
    exact lawful.outOfFuel
  · simp only [Watch.withoutAppending, if_neg appends]
    exact lawful.applyOperation tracks all (Comparison.admits_of_name name (absurd · appends))

/-- What can be said of evaluators up to where they would append to a result list, if operations may
do whatever else they can do. -/
theorem tracks_withoutAppending (n : Nat) :
    c.Tracks (watched .withoutAppending n) fun m => evaluator m := by
  simpa only [watched_plain] using
    lawful.tracks (lawful.respects_withoutAppending uses trace name) n

end Comparison.Lawful

end GrammarKit
