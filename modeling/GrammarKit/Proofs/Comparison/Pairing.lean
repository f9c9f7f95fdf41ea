import GrammarKit.Proofs.Comparison.Interpreter
import GrammarKit.Proofs.Comparison.Sound
import GrammarKit.Proofs.Use
import GrammarKit.Session

/-! # Pairs of stores

Comparisons of evaluations that run side by side, from two stores that are coupled. A `Pairing` says
which stores these are, what has become of them when both evaluations end with a value, and what
when they end with an error. It may be that only runs are considered which leave the result lists in
a certain condition; as result lists only grow, it is enough to look at the end. Stores are sound
throughout.
-/

namespace GrammarKit

open Eval (afterwards)

/-- How a step has ended whose evaluation has ended. -/
def Outcome.ofResult : EStateM.Result Stop Store Answer → Outcome × Store
  | .ok answer store => (⟨.ok answer, store.trace⟩, store)
  | .error stop store => (⟨.error stop, store.trace⟩, store)

namespace Session

theorem runStep_eq (ev : Evaluator) (step : Step) (s : Store) :
    runStep ev step s = Outcome.ofResult (evaluate ev step { s with trace := #[] }) := by
  unfold runStep
  cases evaluate ev step { s with trace := #[] } <;> rfl

end Session

/-- How two evaluations run side by side. -/
structure Pairing where
  names : Names
  /-- Whether the result lists that the first evaluation leaves make it one to be considered. -/
  Counts : Results → Prop
  counts : ∀ {results later : Results}, results.Le later → Counts later → Counts results
  /-- Whether evaluations may start from two stores. -/
  Coupled : Store → Store → Prop
  same : ∀ {s t}, Coupled s t → t.results = s.results ∧ t.cells = s.cells ∧ t.globals = s.globals
  /-- What lies between two stores and the stores after two evaluations with a value. -/
  Between : Store → Store → Store → Store → Prop
  refl : ∀ {s t}, Coupled s t → Between s t s t
  trans : ∀ {s t s' t' s'' t''}, Between s t s' t' → Between s' t' s'' t'' → Between s t s'' t''
  /-- What lies between two stores and the stores after two evaluations with an error. -/
  Failed : Store → Store → Error → Store → Store → Prop
  failed : ∀ {s t} (e), Coupled s t → Failed s t e s t
  further : ∀ {s t e s' t' s'' t''}, Between s t s' t' → Failed s' t' e s'' t'' →
    Failed s t e s'' t''
  /-- What lies between a store and the store where the first evaluation runs out of depth. -/
  Exhausted : Store → Store → Prop
  exhausted : ∀ {s}, Exhausted s s
  beyond : ∀ {s t s' t' s''}, Between s t s' t' → Exhausted s' s'' → Exhausted s s''
  /-- Whether result lists may be appended to. -/
  mayAppend : Prop
  /-- Whether terms may record what they like. -/
  mayTrace : Prop

namespace Pairing

variable (p : Pairing) {α β : Type} {s t s' t' : Store}

/-- How an evaluation ends, and with it those of a family from some depth on. -/
inductive Ends (s t : Store) (y : Nat → EStateM.Result Stop Store α) :
    EStateM.Result Stop Store α → Prop where
  | value {a : α} {s' t' : Store} : p.Coupled s' t' → p.Between s t s' t' →
    (Deep fun m => y m = .ok a t') → Ends s t y (.ok a s')
  | error {e : Error} {s' t' : Store} : p.Failed s t e s' t' →
    (Deep fun m => y m = .error (.error e) t') → Ends s t y (.error (.error e) s')
  | exhausted {s' : Store} : p.Exhausted s s' → Ends s t y (.error .outOfFuel s')

/-- Whether an evaluation and those of a family run side by side. -/
def Holds (w : Nat) (x : Eval α) (y : Nat → Eval α) (Q : Nat → α → Prop) : Prop :=
  Eval.Sound p.names w x Q ∧
    ∀ s t, s.results.size = w → s.Sound p.names → p.Coupled s t →
      p.Counts (afterwards (x s)).results → p.Ends s t (fun m => y m t) (x s)

/-- What two stores may be changed into. -/
def Carries (f : Store → Store) (s t : Store) : Prop :=
  p.Coupled (f s) (f t) ∧ p.Between s t (f s) (f t)

variable {p}

namespace Ends

variable {y : Nat → EStateM.Result Stop Store α} {r : EStateM.Result Stop Store α}

/-- Only the depths from some depth on count. -/
theorem congr {y' : Nat → EStateM.Result Stop Store α} (ends : p.Ends s t y r)
    (same : Deep fun m => y' m = y m) : p.Ends s t y' r := by
  cases ends with
  | value coupled between deep =>
    exact .value coupled between (deep.both same fun m here same => same.trans here)
  | error failed deep => exact .error failed (deep.both same fun m here same => same.trans here)
  | exhausted after => exact .exhausted after

/-- What happens before both evaluations. -/
theorem after (between : p.Between s t s' t') (ends : p.Ends s' t' y r) : p.Ends s t y r := by
  cases ends with
  | value coupled between' deep => exact .value coupled (p.trans between between') deep
  | error failed deep => exact .error (p.further between failed) deep
  | exhausted after => exact .exhausted (p.beyond between after)

/-- What comes after both evaluations, if they have ended with a value. -/
theorem bind {x : Eval α} {y : Nat → Eval α} {f : α → Eval β} {g : Nat → α → Eval β}
    (first : p.Ends s t (fun m => y m t) (x s))
    (second : ∀ a s' t', x s = .ok a s' → p.Coupled s' t' → p.Between s t s' t' →
      p.Ends s' t' (fun m => g m a t') (f a s')) :
    p.Ends s t (fun m => (y m >>= g m) t) ((x >>= f) s) := by
  generalize found : x s = r at first
  cases first with
  | @value a s' t' coupled between deep =>
    rw [Eval.bind_of_eq_ok found]
    refine ((second a s' t' found coupled between).after between).congr (deep.mono fun m here => ?_)
    exact Eval.bind_of_eq_ok here _
  | error failed deep =>
    rw [Eval.bind_of_eq_error found]
    exact .error failed (deep.mono fun m here => Eval.bind_of_eq_error here _)
  | exhausted after =>
    rw [Eval.bind_of_eq_error found]
    exact .exhausted after

end Ends

namespace Holds

variable {w : Nat} {x : Eval α} {y : Nat → Eval α} {P Q : Nat → α → Prop}

theorem pure {a : α} (holds : Q w a) : p.Holds w (Pure.pure a) (fun _ => Pure.pure a) Q :=
  ⟨.pure holds, fun _ _ _ _ coupled _ =>
    .value coupled (p.refl coupled) (.always fun _ => rfl)⟩

theorem raise (e : Error) : p.Holds w (GrammarKit.raise e) (fun _ => GrammarKit.raise e) Q :=
  ⟨.raise e, fun _ _ _ _ coupled _ => .error (p.failed e coupled) (.always fun _ => rfl)⟩

theorem outOfFuel : p.Holds w (throw .outOfFuel) y Q :=
  ⟨.throw _, fun _ _ _ _ _ _ => .exhausted p.exhausted⟩

theorem bind {f : α → Eval β} {g : Nat → α → Eval β} {R : Nat → β → Prop}
    (first : p.Holds w x y P)
    (second : ∀ w' a, w ≤ w' → P w' a → p.Holds w' (f a) (fun m => g m a) R) :
    p.Holds w (x >>= f) (fun m => y m >>= g m) R := by
  refine ⟨first.1.bind fun w' a le here => (second w' a le here).1, ?_⟩
  rintro s t rfl sound coupled counts
  obtain ⟨keeps, after, value⟩ := first.1 s rfl sound
  -- What comes second leaves more in the result lists.
  have considered : p.Counts (afterwards (x s)).results := by
    cases found : x s with
    | ok a s' =>
      rw [found] at keeps after
      have here := second _ a keeps.results.size (value a s' found)
      rw [Eval.bind_of_eq_ok found] at counts
      exact p.counts (here.1 s' rfl after).1.results counts
    | error stop s' =>
      rw [Eval.bind_of_eq_error found] at counts
      exact counts
  refine (first.2 s t rfl sound coupled considered).bind fun a s' t' found coupled' _ => ?_
  rw [found] at keeps after
  rw [Eval.bind_of_eq_ok found] at counts
  exact (second _ a keeps.results.size (value a s' found)).2 s' t' rfl after coupled' counts

theorem deepen {y' : Nat → Eval α} (φ : Nat → Nat) (grows : ∀ k, Deep fun m => k ≤ φ m)
    (same : Deep fun m => y' m = y (φ m)) (holds : p.Holds w x y Q) : p.Holds w x y' Q := by
  refine ⟨holds.1, fun s t size sound coupled counts => ?_⟩
  have further {P : Nat → Prop} (deep : Deep P) : Deep fun m => P (φ m) := by
    obtain ⟨depth, here⟩ := deep
    exact (grows depth).mono fun m le => here (φ m) le
  have ends := holds.2 s t size sound coupled counts
  have deeper : p.Ends s t (fun m => y (φ m) t) (x s) := by
    generalize x s = r at ends
    cases ends with
    | value coupled between deep => exact .value coupled between (further deep)
    | error failed deep => exact .error failed (further deep)
    | exhausted after => exact .exhausted after
  exact deeper.congr (same.mono fun m same => congrFun same t)

theorem mono (weaker : ∀ w' a, w ≤ w' → P w' a → Q w' a) (holds : p.Holds w x y P) :
    p.Holds w x y Q :=
  ⟨holds.1.mono weaker, holds.2⟩

/-- The same step in both stores, which has a value. -/
theorem step {x : Eval α} {f : Store → α} {g : Store → Store}
    (is : ∀ s, x s = .ok (f s) (g s)) (sound : Eval.Sound p.names w x Q)
    (value : ∀ {s t}, p.Coupled s t → f t = f s)
    (carries : ∀ {s t}, p.Coupled s t → p.Carries g s t) : p.Holds w x (fun _ => x) Q := by
  refine ⟨sound, fun s t _ _ coupled _ => ?_⟩
  rw [is s]
  refine .value (carries coupled).1 (carries coupled).2 (.always fun _ => (is t).trans ?_)
  rw [value coupled]

/-- What is computed from a store, which takes some depth. -/
theorem observe {ev : Evaluator} {E : Nat → Evaluator} {x : Evaluator → Eval α}
    {f : Store → Nat → Except Stop α} (is : ∀ ev s, x ev s = (liftM (f s ev.fuel) : Eval α) s)
    (same : ∀ {s t}, p.Coupled s t → ∀ n, f t n = f s n)
    (sooner : ∀ s n m, n ≤ m → Sooner (f s n) (f s m))
    (deep : Deep fun m => ev.fuel ≤ (E m).fuel) :
    p.Holds w (x ev) (fun m => x (E m)) fun w' _ => w' = w := by
  constructor
  · rintro s rfl sound
    rw [is]
    exact Eval.Sound.liftStop (Q := fun w' _ => w' = s.results.size) (fun _ _ => rfl) s rfl sound
  · intro s t _ _ coupled _
    rw [is]
    have later : Deep fun m => Sooner (f s ev.fuel) (f t (E m).fuel) := deep.mono fun m le => by
      rw [same coupled]
      exact sooner s _ _ le
    cases found : f s ev.fuel with
    | ok a =>
      refine .value coupled (p.refl coupled) (later.mono fun m sooner => (is _ t).trans ?_)
      rw [← sooner.resolve_left (by simp [found]), found]
      rfl
    | error stop =>
      cases stop with
      | outOfFuel => exact .exhausted p.exhausted
      | error e =>
        refine .error (p.failed e coupled) (later.mono fun m sooner => (is _ t).trans ?_)
        rw [← sooner.resolve_left (by simp [found]), found]
        rfl

theorem describe {ev : Evaluator} {E : Nat → Evaluator}
    (deep : Deep fun m => ev.fuel ≤ (E m).fuel) (v : Value) :
    p.Holds w (ev.describe v) (fun m => (E m).describe v) fun w' _ => w' = w :=
  observe (x := fun ev => ev.describe v) (f := fun s n => Value.display s.results.unlimited n v)
    (fun _ _ => rfl) (fun coupled n => by rw [(p.same coupled).1])
    (fun _ _ _ le => Value.sooner_display le v) deep

/-- Debug messages are recorded on both sides or on none. -/
theorem branch {x' : Eval α} {y' : Nat → Eval α}
    (same : ∀ {s t}, p.Coupled s t → t.debug = s.debug) (yes : p.Holds w x y Q)
    (no : p.Holds w x' y' Q) :
    p.Holds w (do if (← get).debug then x else x')
      (fun m => do if (← get).debug then y m else y' m) Q := by
  refine ⟨yes.1.branch no.1, fun s t size sound coupled counts => ?_⟩
  simp only [Eval.branch_apply, same coupled] at counts ⊢
  by_cases debug : s.debug = true
  · simp only [if_pos debug] at counts ⊢
    exact yes.2 s t size sound coupled counts
  · simp only [if_neg debug] at counts ⊢
    exact no.2 s t size sound coupled counts

end Holds

/-- The comparison of evaluations that run side by side. -/
def comparison (p : Pairing) : Comparison where
  World := Nat
  bounds := p.names.below
  Later := (· ≤ ·)
  holds := p.Holds
  mayAppend := p.mayAppend
  mayTrace := p.mayTrace
  mayName := p.names.may

/-- What follows when a factory has returned leaves the result lists as they are. -/
private theorem results_logResolved (ev : Evaluator) (address : Nat) (owner : Value) (q : Parser)
    (s : Store) :
    (afterwards ((do if (← get).debug then ev.logResolved address owner
                     return q : Eval Parser) s)).results = s.results := by
  rw [Evaluator.logResolved_apply]
  split
  · split <;> rfl
  · rfl

/-- Evaluations run side by side where a definition is asked for, if calls do, and if what is done
before and after the call of a factory fits in. -/
theorem resolves {w : Nat} {ev : Evaluator} {E : Nat → Evaluator} {address : Nat} {owner : Value}
    (tracks : p.comparison.Tracks ev E) (within : owner.Within (p.names.below w))
    (called : ∀ {s t}, p.Coupled s t →
      p.Coupled (s.note address .called) (t.note address .called))
    (returned : ∀ {s t u v f q}, s.cellAt address = ⟨some f, none⟩ → p.Coupled s t →
      p.Coupled u v → p.Between (s.note address .called) (t.note address .called) u v →
      u.Sound p.names → w ≤ u.results.size → p.Counts u.results →
      p.Ends s t
        (fun m =>
          (do if (← get).debug then (E m).logResolved address owner
              return q : Eval Parser) ((v.note address .returned).settle address q))
        ((do if (← get).debug then ev.logResolved address owner
             return q : Eval Parser) ((u.note address .returned).settle address q)))
    (raised : ∀ {s t u v e f}, s.cellAt address = ⟨some f, none⟩ → p.Coupled s t →
      p.Failed (s.note address .called) (t.note address .called) e u v →
      p.Failed s t e (u.note address .failed) (v.note address .failed))
    (spent : ∀ {s u f}, s.cellAt address = ⟨some f, none⟩ →
      p.Exhausted (s.note address .called) u → p.Exhausted s (u.note address .failed)) :
    p.Holds w (ev.resolve address owner) (fun m => (E m).resolve address owner)
      p.comparison.parser := by
  refine ⟨.resolve (fun f arguments function all => (tracks.call w f arguments function all).1)
    within, ?_⟩
  rintro s t size sound coupled counts
  have same : t.cellAt address = s.cellAt address := by
    rw [Store.cellAt, (p.same coupled).2.1]
    rfl
  cases defined : (s.cellAt address).definition with
  | some q =>
    have there := same ▸ defined
    rw [Evaluator.resolve_of_defined defined]
    exact .value coupled (p.refl coupled)
      (.always fun m => Evaluator.resolve_of_defined there (E m) owner)
  | none =>
    cases made : (s.cellAt address).factory with
    | none =>
      have neither : s.cellAt address = ⟨none, none⟩ := by rw [← defined, ← made]
      rw [Evaluator.resolve_of_neither neither]
      exact .error (p.failed _ coupled)
        (.always fun m => Evaluator.resolve_of_neither (same.trans neither) (E m) owner)
    | some f =>
      have waiting : s.cellAt address = ⟨some f, none⟩ := by rw [← defined, ← made]
      have function : f.Within (p.names.below w) := by
        have factory := sound.factory address
        rw [made, size] at factory
        exact factory
      have given : ∀ v ∈ [owner].take (f.arity 1), v.Within (p.names.below w) :=
        fun v member => List.mem_singleton.mp (List.mem_of_mem_take member) ▸ within
      have call := tracks.call w f _ function given
      obtain ⟨keeps, after, -⟩ := call.1 (s.note address .called) size (sound.congr rfl rfl rfl)
      have ends := call.2 (s.note address .called) (t.note address .called) size
        (sound.congr rfl rfl rfl) (called coupled)
      generalize call : ev.call f ([owner].take (f.arity 1)) (s.note address .called) = r
        at ends keeps after
      cases r with
      | ok a u =>
        rw [Evaluator.resolve_of_returned waiting call] at counts ⊢
        have considered : p.Counts u.results := by
          rw [results_logResolved, Store.results_settle] at counts
          exact counts
        cases ends considered with
        | value coupled' between deep =>
          refine (returned waiting coupled coupled' between after (size ▸ keeps.results.size)
            considered).congr (deep.mono fun m here => ?_)
          exact Evaluator.resolve_of_returned (same.trans waiting) here
      | error stop u =>
        rw [Evaluator.resolve_of_raised waiting call] at counts ⊢
        cases ends counts with
        | error failed deep =>
          refine .error (raised waiting coupled failed) (deep.mono fun m here => ?_)
          exact Evaluator.resolve_of_raised (same.trans waiting) here
        | exhausted after => exact .exhausted (spent waiting after)

/-- What has to be shown of a pairing: the stores may be changed as the operations of terms do, and
definitions of lazy parsers may be asked for. -/
structure Sustained (p : Pairing) : Prop where
  push : ∀ {s t} ds, p.Coupled s t →
    p.Carries (fun u => { u with results := u.results.push ds }) s t
  extend : p.mayAppend → ∀ {s t} address ds, p.Coupled s t →
    p.Carries (fun u => { u with
      results := u.results.write address (u.results.read address ++ ds) }) s t
  addCell : ∀ {s t} factory, p.Coupled s t → p.Carries (Store.addCell factory) s t
  settle : ∀ {s t} address q, s.cellAt address = ⟨none, none⟩ → p.Coupled s t →
    p.Carries (Store.settle address q) s t
  trace : p.mayTrace → ∀ {s t} entry, p.Coupled s t →
    p.Carries (fun u => { u with trace := u.trace.push entry }) s t
  assign : ∀ {s t} name v, p.Coupled s t →
    p.Carries (fun u => { u with globals := (name, v) :: u.globals }) s t
  loud : ∀ {s t}, p.Coupled s t → p.Coupled { s with debug := true } { t with debug := true }
  loudValue : ∀ {s t s' t'}, p.Coupled s t → p.Coupled s' t' →
    p.Between { s with debug := true } { t with debug := true } s' t' →
      p.Coupled { s' with debug := s.debug } { t' with debug := t.debug } ∧
        p.Between s t { s' with debug := s.debug } { t' with debug := t.debug }
  loudError : ∀ {s t e s' t'}, p.Coupled s t →
    p.Failed { s with debug := true } { t with debug := true } e s' t' →
      p.Failed s t e { s' with debug := s.debug } { t' with debug := t.debug }
  loudExhausted : ∀ {s t s'}, p.Coupled s t → p.Exhausted { s with debug := true } s' →
    p.Exhausted s { s' with debug := s.debug }
  resolve : ∀ {w : Nat} {ev : Evaluator} {E : Nat → Evaluator} {address} {owner : Value},
    p.comparison.Tracks ev E → owner.Within (p.names.below w) →
      p.Holds w (ev.resolve address owner) (fun m => (E m).resolve address owner)
        p.comparison.parser

namespace Sustained

variable (sustained : p.Sustained) {w : Nat}

include sustained

theorem withDebug {x : Eval α} {y : Nat → Eval α} {Q : Nat → α → Prop} (holds : p.Holds w x y Q) :
    p.Holds w (Store.withDebug x) (fun m => Store.withDebug (y m)) Q := by
  refine ⟨holds.1.withDebug, fun s t size sound coupled counts => ?_⟩
  have inside : p.Counts (afterwards (x { s with debug := true })).results := by
    unfold Store.withDebug at counts
    dsimp only at counts
    cases found : x { s with debug := true } <;> rw [found] at counts <;> exact counts
  have ends := holds.2 { s with debug := true } { t with debug := true } size
    (sound.congr rfl rfl rfl) (sustained.loud coupled) inside
  unfold Store.withDebug
  dsimp only
  generalize x { s with debug := true } = r at ends
  cases ends with
  | value coupled' between deep =>
    obtain ⟨coupled'', between'⟩ := sustained.loudValue coupled coupled' between
    exact .value coupled'' between' (deep.mono fun m here => by rw [here])
  | error failed deep =>
    exact .error (sustained.loudError coupled failed) (deep.mono fun m here => by rw [here])
  | exhausted after => exact .exhausted (sustained.loudExhausted coupled after)

theorem newResult {ds : List Derivation} (all : p.comparison.derivations w ds) :
    p.Holds w (Store.newResult ds) (fun _ => Store.newResult ds) p.comparison.value := by
  refine Holds.step (fun _ => rfl) ?_ (fun coupled => ?_) (sustained.push ds)
  · rintro s rfl sound
    refine ⟨⟨.push _ _, rfl⟩, sound.newResult all, ?_⟩
    rintro _ t ⟨⟩
    change s.results.size < (s.results.push ds).size
    simp
  · rw [(p.same coupled).1]

theorem append {address : Nat} {more : Results → List Derivation} (may : p.mayAppend)
    (all : ∀ results, results.All (Value.Within (p.names.below w)) →
      p.comparison.derivations w (more results)) :
    let append : Eval Unit := do
      let results ← Store.readResults
      Store.setResult address (results.read address ++ more results)
    p.comparison.steady w append (fun _ => append) fun _ => True := by
  refine Holds.step (f := fun _ => ()) (g := fun u => { u with
      results := u.results.write address
        (u.results.read address ++ more u.results) }) (fun _ => rfl) ?_ (fun _ => rfl) ?_
  · rintro s rfl sound
    refine ⟨⟨.append _ _ _, rfl⟩, sound.append (all s.results sound.results), ?_⟩
    rintro _ t ⟨⟩
    exact ⟨Results.size_write .., trivial⟩
  · intro s t coupled
    have carries := sustained.extend may address (more s.results) coupled
    have read : more t.results = more s.results := by rw [(p.same coupled).1]
    simp only [Carries] at carries ⊢
    rw [read]
    exact carries

theorem newCell {factory : Option Value} (within : Value.OptionWithin (p.names.below w) factory) :
    p.comparison.steady w (Store.newCell factory) (fun _ => Store.newCell factory)
      fun _ => True := by
  refine Holds.step (fun _ => rfl) ?_ (fun coupled => ?_) (sustained.addCell factory)
  · rintro s rfl sound
    refine ⟨⟨.refl _, rfl⟩, sound.addCell within, ?_⟩
    rintro _ t ⟨⟩
    exact ⟨rfl, trivial⟩
  · rw [(p.same coupled).2.1]

theorem define {address : Nat} {v : Value} (within : v.Within (p.names.below w)) :
    p.comparison.steady w (Evaluator.define address v) (fun _ => Evaluator.define address v)
      fun _ => True := by
  have parser := Parser.within_asParser.mpr within
  constructor
  · refine Eval.Sound.readCell.bind fun w' cell _ read => ?_
    obtain ⟨rfl, -, -⟩ := read
    refine Eval.Sound.ite (fun _ => Eval.Sound.raise _) fun _ => ?_
    exact (Eval.Sound.defineCell parser).mono fun _ _ _ same => ⟨same, trivial⟩
  · intro s t _ _ coupled _
    have cells : t.cellAt address = s.cellAt address := by
      rw [Store.cellAt, (p.same coupled).2.1]
      rfl
    rw [Evaluator.define_apply]
    split
    · next given =>
      refine .error (p.failed _ coupled) (.always fun _ => (Evaluator.define_apply t _ _).trans ?_)
      rw [cells, if_pos given]
    · next given =>
      have none : s.cellAt address = ⟨none, none⟩ := by
        generalize s.cellAt address = cell at given
        obtain ⟨factory, definition⟩ := cell
        cases factory <;> cases definition <;> simp_all
      obtain ⟨coupled', between⟩ := sustained.settle address (Parser.asParser v) none coupled
      refine .value coupled' between (.always fun _ => (Evaluator.define_apply t _ _).trans ?_)
      rw [cells, if_neg given]

omit sustained in
theorem readResults : p.comparison.steady w Store.readResults (fun _ => Store.readResults)
    fun results => results.All (Value.Within (p.names.below w)) :=
  Holds.step (fun _ => rfl) Eval.Sound.readResults (fun coupled => (p.same coupled).1)
    fun coupled => ⟨coupled, p.refl coupled⟩

omit sustained in
theorem reading {α : Type} {f : Results → Eval α} {g : Nat → Results → Eval α}
    {Q : Nat → α → Prop}
    (next : ∀ results, results.All (Value.Within (p.names.below w)) →
      p.Holds w (f results) (fun m => g m results) Q) :
    p.Holds w (Store.readResults >>= f) (fun m => Store.readResults >>= g m) Q := by
  refine Holds.bind readResults fun w' results _ read => ?_
  obtain ⟨rfl, store⟩ := read
  exact next results store

omit sustained in
theorem readCell {address : Nat} :
    p.comparison.steady w (Store.readCell address) (fun _ => Store.readCell address)
      fun cell => ∀ q, cell.definition = some q → q.Within (p.names.below w) := by
  refine Holds.step (fun _ => rfl) ?_ (fun coupled => ?_) fun coupled => ⟨coupled, p.refl coupled⟩
  · exact Eval.Sound.readCell.mono fun _ _ _ read => ⟨read.1, read.2.2⟩
  · rw [Store.cellAt, (p.same coupled).2.1]
    rfl

omit sustained in
theorem lookUp {name : String} :
    p.comparison.steady w (Evaluator.lookUp [] name) (fun _ => Evaluator.lookUp [] name)
      fun v => v.Within (p.names.below w) := by
  constructor
  · rintro s rfl sound
    rw [Evaluator.lookUp_nil]
    cases here : s.globals.lookup name with
    | none => exact ⟨.refl s, sound, nofun⟩
    | some v =>
      refine ⟨.refl s, sound, ?_⟩
      rintro _ t ⟨⟩
      exact ⟨rfl, sound.globals.lookup here⟩
  · intro s t _ _ coupled _
    simp only [Evaluator.lookUp_nil, (p.same coupled).2.2]
    cases s.globals.lookup name with
    | none => exact .error (p.failed _ coupled) (.always fun _ => rfl)
    | some v => exact .value coupled (p.refl coupled) (.always fun _ => rfl)

theorem record {entry : Answer} (may : p.mayTrace) :
    p.comparison.steady w (Store.record entry) (fun _ => Store.record entry) fun _ => True :=
  Holds.step (f := fun _ => ()) (fun _ => rfl)
    (Eval.Sound.update (fun _ => ⟨rfl, rfl, rfl, rfl⟩) ⟨rfl, trivial⟩) (fun _ => rfl)
    (sustained.trace may entry)

omit sustained in
theorem snapshot {ev : Evaluator} {E : Nat → Evaluator} {v : Value}
    (deep : Deep fun m => ev.fuel ≤ (E m).fuel) :
    p.comparison.steady w (ev.snapshot v) (fun m => (E m).snapshot v) fun _ => True :=
  (Holds.observe (x := fun ev => ev.snapshot v) (f := fun s n => Value.snapshot s n v)
    (fun _ _ => rfl) (fun coupled n => Value.snapshot_congr (p.same coupled).1
      (p.same coupled).2.1 n v) (fun _ _ _ le => Value.sooner_snapshot le v) deep).mono
    fun _ _ _ same => ⟨same, trivial⟩

/-- Evaluations run side by side as soon as the operations do. -/
theorem lawful : p.comparison.Lawful where
  refl _ := Nat.le_refl _
  trans := Nat.le_trans
  wider := p.names.below_le
  name _ _ may := may
  deepen φ grows same holds := Holds.deepen φ grows same holds
  pure := Holds.pure
  bind := Holds.bind
  raise := Holds.raise
  outOfFuel := Holds.outOfFuel
  withDebug := sustained.withDebug
  reading next _ := reading next
  newResult := sustained.newResult
  append may _ _ all := sustained.append may all
  newCell := sustained.newCell
  readCell := readCell
  define := sustained.define
  lookUp := lookUp
  record := sustained.record
  snapshot deep _ := snapshot deep
  resolve := sustained.resolve

/-! ## Steps of a session -/

theorem bindGlobal {name : Option String} {v : Value} (within : v.Within (p.names.below w)) :
    p.comparison.steady w (Session.bindGlobal name v) (fun _ => Session.bindGlobal name v)
      fun _ => True := by
  cases name with
  | none => exact Holds.pure ⟨rfl, trivial⟩
  | some name =>
    refine Holds.step (f := fun _ => ()) (fun _ => rfl) ?_ (fun _ => rfl)
      (sustained.assign name v)
    rintro s rfl sound
    refine ⟨⟨.refl _, rfl⟩, ?_, ?_⟩
    · exact ⟨sound.results, sound.factory, sound.definition, within, sound.globals⟩
    · rintro _ t ⟨⟩
      exact ⟨rfl, trivial⟩

/-- Steps of sessions run side by side. -/
theorem evaluate {ev : Evaluator} {E : Nat → Evaluator} (tracks : p.comparison.Tracks ev E)
    (step : Step) :
    p.Holds w (Session.evaluate ev step) (fun m => Session.evaluate (E m) step)
      fun _ _ => True := by
  refine sustained.lawful.bind (tracks.eval w [] step.term trivial) fun w' v _ value => ?_
  refine sustained.lawful.after (sustained.bindGlobal value) fun _ _ => ?_
  exact sustained.lawful.holds_of_steady (fun _ _ => trivial) (snapshot tracks.fuel)

end Sustained

end Pairing

end GrammarKit
