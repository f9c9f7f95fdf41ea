import GrammarKit.Proofs.Comparison.Interpreter
import GrammarKit.Proofs.Use

/-! # Deeper evaluators

An evaluation that comes to an end at some depth, with a value or with an error, comes to the same
end and does the same to the store from some depth on. What has to be shown of sequences and of the
operations on the store is that they pass this on; the values are of no importance.
-/

namespace GrammarKit

namespace Eval

variable {α β : Type}

/-- Whether an evaluation that does not run out of depth is the same in a family of evaluations from
some depth on. -/
def Lasts (x : Eval α) (y : Nat → Eval α) : Prop :=
  ∀ s, (∀ t, x s ≠ .error .outOfFuel t) → Deep fun m => y m s = x s

namespace Lasts

variable {x : Eval α} {y : Nat → Eval α} {f : α → Eval β} {g : Nat → α → Eval β}

theorem refl (x : Eval α) : Lasts x fun _ => x := fun _ _ => .always fun _ => rfl

theorem outOfFuel : Lasts (throw .outOfFuel) y := fun s ends => absurd rfl (ends s)

theorem bind (first : Lasts x y)
    (second : ∀ s a t, x s = .ok a t → Lasts (f a) fun m => g m a) :
    Lasts (x >>= f) fun m => y m >>= g m := by
  intro s ends
  cases found : x s with
  | ok a t =>
    have here := first s fun _ same => by simp [found] at same
    have there := second s a t found t fun u same => ends u (by rw [bind_of_eq_ok found, same])
    refine here.both there fun m here there => ?_
    exact (bind_of_eq_ok (here.trans found) _).trans (there.trans (bind_of_eq_ok found f).symm)
  | error stop t =>
    have here := first s fun u same => ends u (bind_of_eq_error same f)
    refine here.mono fun m here => ?_
    exact (bind_of_eq_error (here.trans found) _).trans (bind_of_eq_error found f).symm

/-- What is computed from a store, which takes some depth. -/
theorem observe {ev : Evaluator} {E : Nat → Evaluator} {x : Evaluator → Eval α}
    {f : Store → Nat → Except Stop α} (is : ∀ ev s, x ev s = (liftM (f s ev.fuel) : Eval α) s)
    (sooner : ∀ s n m, n ≤ m → Sooner (f s n) (f s m))
    (deep : Deep fun m => ev.fuel ≤ (E m).fuel) : Lasts (x ev) fun m => x (E m) := by
  intro s ends
  refine deep.mono fun m le => ?_
  rcases sooner s _ _ le with exhausted | same
  · refine absurd ?_ (ends s)
    rw [is, exhausted]
    rfl
  · exact (is (E m) s).trans (same ▸ (is ev s).symm)

theorem display {ev : Evaluator} {E : Nat → Evaluator}
    (deep : Deep fun m => ev.fuel ≤ (E m).fuel) (v : Value) :
    Lasts (ev.display v) fun m => (E m).display v :=
  observe (x := fun ev => ev.display v) (f := fun s n => Value.display s.results n v)
    (fun _ _ => rfl) (fun _ _ _ le => Value.sooner_display le v) deep

theorem describe {ev : Evaluator} {E : Nat → Evaluator}
    (deep : Deep fun m => ev.fuel ≤ (E m).fuel) (v : Value) :
    Lasts (ev.describe v) fun m => (E m).describe v :=
  observe (x := fun ev => ev.describe v) (f := fun s n => Value.display s.results.unlimited n v)
    (fun _ _ => rfl) (fun _ _ _ le => Value.sooner_display le v) deep

theorem logTrying {ev : Evaluator} {E : Nat → Evaluator}
    (deep : Deep fun m => ev.fuel ≤ (E m).fuel) (p : Parser) (input : Value) :
    Lasts (ev.logTrying p input) fun m => (E m).logTrying p input :=
  (describe deep _).bind fun _ _ _ _ => (describe deep _).bind fun _ _ _ _ => .refl _

theorem logProduced {ev : Evaluator} {E : Nat → Evaluator}
    (deep : Deep fun m => ev.fuel ≤ (E m).fuel) (p : Parser) (count : Nat) :
    Lasts (ev.logProduced p count) fun m => (E m).logProduced p count :=
  (describe deep _).bind fun _ _ _ _ => .refl _

theorem withDebug (lasts : Lasts x y) :
    Lasts (Store.withDebug x) fun m => Store.withDebug (y m) := by
  intro s ends
  have inside := lasts { s with debug := true } fun t same => ends { t with debug := s.debug } (by
    simp only [Store.withDebug, same])
  exact inside.mono fun m same => by simp only [Store.withDebug, same]

theorem supply (address : Nat) (lasts : Lasts x y) :
    Lasts (Store.supply address x) fun m => Store.supply address (y m) := by
  intro s ends
  have inside := lasts (s.note address .called) fun t same => ends (t.note address .failed) (by
    simp only [Store.supply, same])
  exact inside.mono fun m same => by simp only [Store.supply, same]

theorem ite_debug {x' : Eval α} {y' : Nat → Eval α} (yes : Lasts x y) (no : Lasts x' y') :
    Lasts (do if (← get).debug then x else x')
      (fun m => do if (← get).debug then y m else y' m) := by
  have read (s : Store) : (get : Eval Store) s = .ok s s := rfl
  intro s
  simp only [bind_of_eq_ok (read s)]
  split
  · exact yes s
  · exact no s

end Lasts

end Eval

open Eval (Lasts)

/-- The comparison of evaluations to deeper ones. -/
def deepening : Comparison where
  World := Unit
  bounds _ := .unlimited
  Later _ _ := True
  holds _ x y Q := (∀ s a t, x s = .ok a t → Q () a) ∧ Lasts x y
  mayAppend := True
  mayTrace := True
  mayName _ := True

namespace deepening

variable {α : Type} {w : Unit}

/-- Evaluations that are the same at every depth. -/
theorem steady {x : Eval α} {P : α → Prop} (all : ∀ s a t, x s = .ok a t → P a) :
    deepening.steady w x (fun _ => x) P :=
  ⟨fun s a t success => ⟨rfl, all s a t success⟩, .refl x⟩

theorem all_unlimited (ds : List Derivation) : ∀ d ∈ ds, d.Within .unlimited :=
  fun _ _ => ⟨Value.within_unlimited _, Value.within_unlimited _⟩

theorem lasts_resolve {ev : Evaluator} {E : Nat → Evaluator} {address : Nat} {owner : Value}
    (tracks : deepening.Tracks ev E) :
    Lasts (ev.resolve address owner) fun m => (E m).resolve address owner := by
  refine Lasts.bind (y := fun _ => Store.readCell address) (.refl _) fun s cell t _ => ?_
  cases cell.definition with
  | some q => exact .refl _
  | none =>
    cases cell.factory with
    | none => exact .refl _
    | some factory =>
      have called := (tracks.call () factory ([owner].take (factory.arity 1))
        (Value.within_unlimited _) fun _ _ => Value.within_unlimited _).2
      refine (called.supply address).bind fun s v t _ => ?_
      refine Lasts.bind (y := fun _ => Store.defineCell address (Parser.asParser v)) (.refl _)
        fun _ _ _ _ => ?_
      have told : Lasts (ev.logResolved address owner) fun m => (E m).logResolved address owner :=
        (Lasts.describe tracks.fuel owner).bind fun _ _ _ _ => .refl _
      exact .ite_debug (told.bind fun _ _ _ _ => .refl _) (.refl _)

theorem lawful : deepening.Lawful where
  refl _ := trivial
  trans _ _ := trivial
  wider _ := ⟨fun _ _ => trivial, fun _ _ => trivial⟩
  name _ _ _ := trivial
  deepen φ grows same holds := by
    refine ⟨holds.1, fun s ends => ?_⟩
    obtain ⟨depth, here⟩ := holds.2 s ends
    refine (grows depth).both same fun m le same => ?_
    rw [same]
    exact here (φ m) le
  pure holds := ⟨fun _ _ _ success => by
    obtain ⟨rfl, -⟩ := Eval.pure_eq_ok_iff.mp success
    exact holds, .refl _⟩
  bind first second := by
    refine ⟨fun s b t success => ?_, first.2.bind fun s a t found => ?_⟩
    · obtain ⟨a, s', found, success⟩ := Eval.bind_eq_ok_iff.mp success
      exact (second () a trivial (first.1 s a s' found)).1 s' b t success
    · exact (second () a trivial (first.1 s a t found)).2
  raise _ := ⟨nofun, .refl _⟩
  outOfFuel := ⟨nofun, .outOfFuel⟩
  withDebug {_ _ x _ _} holds := by
    refine ⟨fun s a t success => ?_, holds.2.withDebug⟩
    unfold Store.withDebug at success
    cases found : x { s with debug := true } with
    | ok b u =>
      simp only [found] at success
      cases success
      exact holds.1 _ _ _ found
    | error stop u =>
      simp only [found] at success
      cases success
  reading {_ _ f _ _} next _ := by
    have all (results : Results) : results.All (Value.Within .unlimited) :=
      fun _ _ _ _ => Value.within_unlimited _
    refine ⟨fun s a t success => (next s.results (all _)).1 s a t success, ?_⟩
    exact Lasts.bind (y := fun _ => Store.readResults) (.refl _) fun _ results _ _ =>
      (next results (all _)).2
  newResult _ := ⟨fun _ _ _ _ => Value.within_unlimited _, .refl _⟩
  append _ _ _ _ := steady fun _ _ _ _ => trivial
  newCell _ := steady fun _ _ _ _ => trivial
  readCell := steady fun _ _ _ _ _ _ => Parser.within_unlimited _
  define _ := steady fun _ _ _ _ => trivial
  lookUp := steady fun _ _ _ _ => Value.within_unlimited _
  record _ := steady fun _ _ _ _ => trivial
  snapshot deep _ := by
    refine ⟨fun _ _ _ _ => ⟨rfl, trivial⟩, ?_⟩
    exact Lasts.observe (x := fun ev => ev.snapshot _) (f := fun s n => Value.snapshot s n _)
      (fun _ _ => rfl) (fun _ _ _ le => Value.sooner_snapshot le _) deep
  resolve tracks _ := ⟨fun _ _ _ _ => Parser.within_unlimited _, lasts_resolve tracks⟩

theorem uses : deepening.Uses := by
  intro w ev E p input grows _ _ produced
  have fuel : Deep fun m => ev.fuel ≤ (E m).fuel := grows _
  have found : Lasts (ev.produce p input) fun m => (E m).produce p input := (produced () trivial).2
  have tried := Lasts.logTrying fuel p input
  refine ⟨fun _ ds _ _ => all_unlimited ds, ?_⟩
  cases foreign : p.isForeign with
  | true =>
    simp only [Evaluator.use, foreign, if_true]
    exact .refl _
  | false =>
    simp only [Evaluator.use, foreign, Bool.false_eq_true, if_false]
    refine .ite_debug (tried.bind fun _ _ _ _ => found.bind fun _ ds _ _ => ?_) found
    exact (Lasts.logProduced fuel p ds.length).bind fun _ _ _ _ => .refl _

end deepening

namespace Evaluator

theorem tracks_deeper (n : Nat) : deepening.Tracks (evaluator n) fun m => evaluator m :=
  deepening.lawful.tracks_evaluator deepening.uses trivial trivial (fun _ => trivial) n

theorem lasts_call (n : Nat) (f : Value) (arguments : List Value) :
    Lasts ((evaluator n).call f arguments) fun m => (evaluator m).call f arguments :=
  ((tracks_deeper n).call () f arguments (Value.within_unlimited f)
    fun _ _ => Value.within_unlimited _).2

theorem lasts_mapValues (n : Nat) (f : Value) (ds : List Derivation) :
    Lasts ((evaluator n).mapValues f ds) fun m => (evaluator m).mapValues f ds :=
  (deepening.lawful.mapValues (w := ()) (tracks_deeper n) ds (Value.within_unlimited f)
    (deepening.all_unlimited ds)).2

theorem lasts_process (n : Nat) (p : Parser) (input : Value) :
    Lasts ((evaluator n).process p input) fun m => (evaluator m).process p input :=
  (deepening.lawful.process (w := ()) (tracks_deeper n) (Parser.within_unlimited p)
    (Value.within_unlimited input)).2

/-- What a parser comes to at one depth, it comes to from some depth on. -/
theorem parse_lasts {n : Nat} {p : Parser} {input : Value} {s : Store}
    (ends : ∀ t, (evaluator n).parse p input s ≠ .error .outOfFuel t) :
    Deep fun m => (evaluator m).parse p input s = (evaluator n).parse p input s :=
  ((tracks_deeper n).parse () p input (Parser.within_unlimited p)
    (Value.within_unlimited input)).2 s ends

/-- What a function comes to at one depth, it comes to from some depth on. -/
theorem call_lasts {n : Nat} {f : Value} {arguments : List Value} {s : Store}
    (ends : ∀ t, (evaluator n).call f arguments s ≠ .error .outOfFuel t) :
    Deep fun m => (evaluator m).call f arguments s = (evaluator n).call f arguments s :=
  lasts_call n f arguments s ends

end Evaluator

end GrammarKit
