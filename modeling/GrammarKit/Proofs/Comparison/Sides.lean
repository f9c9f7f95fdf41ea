import GrammarKit.Proofs.Comparison.Interpreter
import GrammarKit.Proofs.Comparison.Sound

/-! # Evaluations side by side

Two stores may be alike but for something that evaluations do not look at. Then an evaluation from
the first store runs side by side with those of a family from the second one, and leads to stores
that are alike again. `Sides` says when stores are alike, what may become of the first one, and that
the few operations that change a store keep to that. So does every evaluation, then. The values that
both sides come to are the same where both do the same; evaluations that are put together in
different ways may come to related ones.
-/

namespace GrammarKit

/-- When two stores are alike, and what may become of the first one. -/
structure Sides where
  /-- What values keep to. -/
  bounds : Bounds
  /-- Whether two stores are alike. -/
  Coupled : Store → Store → Prop
  /-- Whether a store may become another one on the first side. -/
  Later : Store → Store → Prop
  /-- The errors that the first evaluation may raise alone. -/
  Excused : Error → Prop
  /-- Whether result lists may be appended to. -/
  mayAppend : Prop
  name : ∀ v, bounds.name v
  trans : ∀ {s t u}, Later s t → Later t u → Later s u
  others : ∀ {s t}, t.results = s.results → t.objects = s.objects → Later s t
  pushed : ∀ s ds, Later s { s with results := s.results.push ds }
  appended : mayAppend → ∀ s address ds, Later s { s with results := s.results.write address ds }
  within : ∀ {s t}, Coupled s t → s.Within bounds
  agree : ∀ {s t}, Coupled s t → s.results.Agree bounds t.results
  size : ∀ {s t}, Coupled s t → t.results.size = s.results.size
  next : ∀ {s t}, Coupled s t → bounds.result s.results.size
  cells : ∀ {s t}, Coupled s t → t.cells = s.cells
  debug : ∀ {s t}, Coupled s t → t.debug = s.debug
  /-- A variable is the same on both sides, unless the first evaluation may fail there. -/
  lookUp : ∀ {s t}, Coupled s t → ∀ name, t.globals.lookup name = s.globals.lookup name ∨
    s.globals.lookup name = none ∧ Excused (.unbound name)
  loud : ∀ {s t}, Coupled s t → ∀ debug,
    Coupled { s with debug := debug } { t with debug := debug }
  record : ∀ {s t}, Coupled s t → ∀ entry, Coupled { s with trace := s.trace.push entry }
    { t with trace := t.trace.push entry }
  note : ∀ {s t}, Coupled s t → ∀ address event,
    Coupled (s.note address event) (t.note address event)
  push : ∀ {s t}, Coupled s t → ∀ ds, (∀ d ∈ ds, d.Within bounds) →
    Coupled { s with results := s.results.push ds } { t with results := t.results.push ds }
  append : mayAppend → ∀ {s t}, Coupled s t → ∀ {address} ds, bounds.result address →
    (∀ d ∈ ds, d.Within bounds) →
      Coupled { s with results := s.results.write address (s.results.read address ++ ds) }
        { t with results := t.results.write address (t.results.read address ++ ds) }
  addCell : ∀ {s t}, Coupled s t → ∀ factory, Value.OptionWithin bounds factory →
    Coupled (s.addCell factory) (t.addCell factory)
  settle : ∀ {s t}, Coupled s t → ∀ address p, p.Within bounds →
    Coupled (s.settle address p) (t.settle address p)

/-- Defining a cell leaves the objects as they are. -/
@[simp] theorem Store.objects_settle (s : Store) (address : Nat) (p : Parser) :
    (s.settle address p).objects = s.objects := by
  unfold Store.settle
  split <;> rfl

namespace Sides

variable (sides : Sides) {α α' β β' : Type}

/-- How an evaluation ends, and with it those of a family from some depth on: with related values
and in stores that are alike, or with the same error. However it ends, its store is like another
one. -/
inductive Ends (before : Store) (y : Nat → EStateM.Result Stop Store α')
    (R : α → α' → Store → Prop) : EStateM.Result Stop Store α → Prop where
  | value {v : α} {v' : α'} {s t : Store} : R v v' s → sides.Coupled s t →
    sides.Later before s → (Deep fun m => y m = .ok v' t) → Ends before y R (.ok v s)
  | error {e : Error} {s t : Store} : sides.Coupled s t → sides.Later before s →
    (Deep fun m => y m = .error (.error e) t) → Ends before y R (.error (.error e) s)
  | excused {e : Error} {s t : Store} : sides.Coupled s t → sides.Later before s →
    sides.Excused e → Ends before y R (.error (.error e) s)
  | exhausted {s t : Store} : sides.Coupled s t → sides.Later before s →
    Ends before y R (.error .outOfFuel s)

/-- The same value of some kind. -/
def Same (Q : α → Prop) (v v' : α) (_ : Store) : Prop := v' = v ∧ Q v

/-- Whether an evaluation and those of a family run side by side from stores that are alike. -/
def Holds (x : Eval α) (y : Nat → Eval α) (Q : α → Prop) : Prop :=
  ∀ s t, sides.Coupled s t → sides.Ends s (fun m => y m t) (Same Q) (x s)

variable {sides}

theorem refl (s : Store) : sides.Later s s := sides.others rfl rfl

theorem cellAt_eq {s t : Store} (coupled : sides.Coupled s t) (address : Nat) :
    t.cellAt address = s.cellAt address := by
  rw [Store.cellAt, sides.cells coupled]
  rfl

namespace Ends

variable {before : Store} {y : Nat → EStateM.Result Stop Store α'} {R : α → α' → Store → Prop}
  {r : EStateM.Result Stop Store α}

/-- Only the depths from some depth on count. -/
theorem congr {y' : Nat → EStateM.Result Stop Store α'} (ends : sides.Ends before y R r)
    (same : Deep fun m => y' m = y m) : sides.Ends before y' R r := by
  cases ends with
  | value related coupled later deep =>
    exact .value related coupled later (deep.both same fun m here same => same.trans here)
  | error coupled later deep =>
    exact .error coupled later (deep.both same fun m here same => same.trans here)
  | excused coupled later may => exact .excused coupled later may
  | exhausted coupled later => exact .exhausted coupled later

theorem mono {R' : α → α' → Store → Prop} (weaker : ∀ v v' s, R v v' s → R' v v' s)
    (ends : sides.Ends before y R r) : sides.Ends before y R' r := by
  cases ends with
  | value related coupled later deep => exact .value (weaker _ _ _ related) coupled later deep
  | error coupled later deep => exact .error coupled later deep
  | excused coupled later may => exact .excused coupled later may
  | exhausted coupled later => exact .exhausted coupled later

/-- The depths may grow at any pace. -/
theorem deepen (φ : Nat → Nat) (grows : ∀ k, Deep fun m => k ≤ φ m)
    (ends : sides.Ends before y R r) : sides.Ends before (fun m => y (φ m)) R r := by
  have further {P : Nat → Prop} (deep : Deep P) : Deep fun m => P (φ m) := by
    obtain ⟨depth, here⟩ := deep
    exact (grows depth).mono fun m le => here (φ m) le
  cases ends with
  | value related coupled later deep => exact .value related coupled later (further deep)
  | error coupled later deep => exact .error coupled later (further deep)
  | excused coupled later may => exact .excused coupled later may
  | exhausted coupled later => exact .exhausted coupled later

/-- What happens before both evaluations. -/
theorem after {middle : Store} (later : sides.Later before middle)
    (ends : sides.Ends middle y R r) : sides.Ends before y R r := by
  cases ends with
  | value related coupled later' deep =>
    exact .value related coupled (sides.trans later later') deep
  | error coupled later' deep => exact .error coupled (sides.trans later later') deep
  | excused coupled later' may => exact .excused coupled (sides.trans later later') may
  | exhausted coupled later' => exact .exhausted coupled (sides.trans later later')

/-- What comes after both evaluations, if they have ended with values. -/
theorem bind {middle : Store} {s t : Store} {x : Eval α} {y : Nat → Eval α'} {f : α → Eval β}
    {g : Nat → α' → Eval β'} {R' : β → β' → Store → Prop} (earlier : sides.Later before middle)
    (first : sides.Ends middle (fun m => y m t) R (x s))
    (second : ∀ v v' s' t', R v v' s' → sides.Coupled s' t' → sides.Later middle s' →
      sides.Ends before (fun m => g m v' t') R' (f v s')) :
    sides.Ends before (fun m => (y m >>= g m) t) R' ((x >>= f) s) := by
  generalize found : x s = r at first
  cases first with
  | @value v v' s' t' related coupled later deep =>
    rw [Eval.bind_of_eq_ok found]
    exact (second v v' s' t' related coupled later).congr
      (deep.mono fun m here => Eval.bind_of_eq_ok here _)
  | error coupled later deep =>
    rw [Eval.bind_of_eq_error found]
    exact .error coupled (sides.trans earlier later)
      (deep.mono fun m here => Eval.bind_of_eq_error here _)
  | excused coupled later may =>
    rw [Eval.bind_of_eq_error found]
    exact .excused coupled (sides.trans earlier later) may
  | exhausted coupled later =>
    rw [Eval.bind_of_eq_error found]
    exact .exhausted coupled (sides.trans earlier later)

/-- What is made of the value of the first side, which leaves the store as it is. -/
theorem mapFirst {s : Store} {x : Eval α} {f : α → Eval β} {R' : β → α' → Store → Prop}
    (ends : sides.Ends before y R (x s))
    (made : ∀ v v' s, R v v' s → ∃ u, f v s = .ok u s ∧ R' u v' s) :
    sides.Ends before y R' ((x >>= f) s) := by
  generalize found : x s = r at ends
  cases ends with
  | value related coupled later deep =>
    obtain ⟨u, same, related'⟩ := made _ _ _ related
    rw [Eval.bind_of_eq_ok found, same]
    exact .value related' coupled later deep
  | error coupled later deep =>
    rw [Eval.bind_of_eq_error found]
    exact .error coupled later deep
  | excused coupled later may =>
    rw [Eval.bind_of_eq_error found]
    exact .excused coupled later may
  | exhausted coupled later =>
    rw [Eval.bind_of_eq_error found]
    exact .exhausted coupled later

/-- What is made of the value of the second side. -/
theorem mapSecond {t : Store} {y : Nat → Eval α'} {h : α' → β'} {R' : α → β' → Store → Prop}
    (ends : sides.Ends before (fun m => y m t) R r)
    (related : ∀ v v' s, R v v' s → R' v (h v') s) :
    sides.Ends before (fun m => (y m >>= fun v' => Pure.pure (h v')) t) R' r := by
  cases ends with
  | value here coupled later deep =>
    exact .value (related _ _ _ here) coupled later
      (deep.mono fun m here => Eval.bind_of_eq_ok here _)
  | error coupled later deep =>
    exact .error coupled later (deep.mono fun m here => Eval.bind_of_eq_error here _)
  | excused coupled later may => exact .excused coupled later may
  | exhausted coupled later => exact .exhausted coupled later

/-- What comes after a computation without effects. -/
theorem lift {s t : Store} {x : Except Error β} {f : β → Eval α} {g : Nat → β → Eval α'}
    (coupled : sides.Coupled s t) (later : sides.Later before s)
    (next : ∀ b, x = .ok b → sides.Ends before (fun m => g m b t) R (f b s)) :
    sides.Ends before (fun m => ((liftM x : Eval β) >>= g m) t) R
      (((liftM x : Eval β) >>= f) s) := by
  cases x with
  | ok b => exact next b rfl
  | error e => exact .error coupled later (.always fun _ => rfl)

end Ends

namespace Holds

variable {x x' : Eval α} {y y' : Nat → Eval α} {P Q : α → Prop}

theorem pure {v : α} (holds : Q v) : sides.Holds (Pure.pure v) (fun _ => Pure.pure v) Q :=
  fun _ _ coupled => .value ⟨rfl, holds⟩ coupled (refl _) (.always fun _ => rfl)

theorem raise (e : Error) : sides.Holds (GrammarKit.raise e) (fun _ => GrammarKit.raise e) Q :=
  fun _ _ coupled => .error coupled (refl _) (.always fun _ => rfl)

theorem outOfFuel : sides.Holds (throw .outOfFuel) y Q :=
  fun _ _ coupled => .exhausted coupled (refl _)

theorem bind {f : α → Eval β} {g : Nat → α → Eval β} {R : β → Prop} (first : sides.Holds x y P)
    (second : ∀ v, P v → sides.Holds (f v) (fun m => g m v) R) :
    sides.Holds (x >>= f) (fun m => y m >>= g m) R := by
  intro s t coupled
  refine (first s t coupled).bind (refl _) fun v v' s' t' same coupled' later => ?_
  obtain ⟨rfl, holds⟩ := same
  exact (second v' holds s' t' coupled').after later

theorem mono (weaker : ∀ v, P v → Q v) (holds : sides.Holds x y P) : sides.Holds x y Q :=
  fun s t coupled => (holds s t coupled).mono fun _ _ _ same => ⟨same.1, weaker _ same.2⟩

theorem deepen (φ : Nat → Nat) (grows : ∀ k, Deep fun m => k ≤ φ m)
    (same : Deep fun m => y' m = y (φ m)) (holds : sides.Holds x y Q) : sides.Holds x y' Q :=
  fun s t coupled =>
    ((holds s t coupled).deepen φ grows).congr (same.mono fun _ same => congrFun same t)

/-- The same step in both stores, which has a value. -/
theorem step {f : Store → α} {g : Store → Store} (is : ∀ s, x s = .ok (f s) (g s))
    (value : ∀ {s t}, sides.Coupled s t → f t = f s ∧ Q (f s))
    (after : ∀ {s t}, sides.Coupled s t → sides.Coupled (g s) (g t))
    (later : ∀ s, sides.Later s (g s)) : sides.Holds x (fun _ => x) Q := by
  intro s t coupled
  rw [is s]
  exact .value (value coupled) (after coupled) (later s) (.always fun _ => is t)

/-- What is computed from a store, which takes some depth. -/
theorem observe {ev : Evaluator} {E : Nat → Evaluator} {x : Evaluator → Eval α}
    {f : Store → Nat → Except Stop α} (is : ∀ ev s, x ev s = (liftM (f s ev.fuel) : Eval α) s)
    (same : ∀ {s t}, sides.Coupled s t → ∀ n, f t n = f s n)
    (sooner : ∀ s n m, n ≤ m → Sooner (f s n) (f s m))
    (deep : Deep fun m => ev.fuel ≤ (E m).fuel) :
    sides.Holds (x ev) (fun m => x (E m)) fun _ => True := by
  intro s t coupled
  rw [is]
  have later : Deep fun m => Sooner (f s ev.fuel) (f t (E m).fuel) := deep.mono fun m le => by
    rw [same coupled]
    exact sooner s _ _ le
  cases found : f s ev.fuel with
  | ok v =>
    refine .value ⟨rfl, trivial⟩ coupled (refl _)
      (later.mono fun m sooner => (is _ t).trans ?_)
    rw [← sooner.resolve_left (by simp [found]), found]
    rfl
  | error stop =>
    cases stop with
    | outOfFuel => exact .exhausted coupled (refl _)
    | error e =>
      refine .error coupled (refl _) (later.mono fun m sooner => (is _ t).trans ?_)
      rw [← sooner.resolve_left (by simp [found]), found]
      rfl

/-- Debug messages are recorded on both sides or on none. -/
theorem branch (yes : sides.Holds x y Q) (no : sides.Holds x' y' Q) :
    sides.Holds (do if (← get).debug then x else x')
      (fun m => do if (← get).debug then y m else y' m) Q := by
  intro s t coupled
  simp only [Eval.branch_apply, sides.debug coupled]
  split
  · exact yes s t coupled
  · exact no s t coupled

theorem withDebug (inside : sides.Holds x y Q) :
    sides.Holds (Store.withDebug x) (fun m => Store.withDebug (y m)) Q := by
  intro s t coupled
  have ends := inside _ _ (sides.loud coupled true)
  unfold Store.withDebug
  dsimp only
  generalize x { s with debug := true } = r at ends
  rw [sides.debug coupled]
  -- Nothing has become of the store but what has become of it inside.
  have around {u : Store} (later : sides.Later { s with debug := true } u) :
      sides.Later s { u with debug := s.debug } :=
    have quiet : sides.Later s { s with debug := true } := sides.others rfl rfl
    sides.trans (sides.trans quiet later) (sides.others rfl rfl)
  cases ends with
  | value same coupled' later deep =>
    exact .value same (sides.loud coupled' s.debug) (around later)
      (deep.mono fun m here => by rw [here])
  | error coupled' later deep =>
    exact .error (sides.loud coupled' s.debug) (around later)
      (deep.mono fun m here => by rw [here])
  | excused coupled' later may =>
    exact .excused (sides.loud coupled' s.debug) (around later) may
  | exhausted coupled' later => exact .exhausted (sides.loud coupled' s.debug) (around later)

theorem supply (address : Nat) (called : sides.Holds x y Q) :
    sides.Holds (Store.supply address x) (fun m => Store.supply address (y m)) Q := by
  intro s t coupled
  have ends := called _ _ (sides.note coupled address .called)
  unfold Store.supply
  dsimp only
  generalize x (s.note address .called) = r at ends
  have around {u : Store} (event : CellEvent) (later : sides.Later (s.note address .called) u) :
      sides.Later s (u.note address event) :=
    have noted : sides.Later s (s.note address .called) := sides.others rfl rfl
    sides.trans (sides.trans noted later) (sides.others rfl rfl)
  cases ends with
  | value same coupled' later deep =>
    exact .value same (sides.note coupled' address .returned) (around _ later)
      (deep.mono fun m here => by simp only [here])
  | error coupled' later deep =>
    exact .error (sides.note coupled' address .failed) (around _ later)
      (deep.mono fun m here => by simp only [here])
  | excused coupled' later may =>
    exact .excused (sides.note coupled' address .failed) (around _ later) may
  | exhausted coupled' later =>
    exact .exhausted (sides.note coupled' address .failed) (around _ later)

/-! ## Messages -/

theorem record (entry : Answer) :
    sides.Holds (Store.record entry) (fun _ => Store.record entry) fun _ => True :=
  step (f := fun _ => ()) (fun _ => rfl) (fun _ => ⟨rfl, trivial⟩)
    (fun coupled => sides.record coupled entry) fun _ => sides.others rfl rfl

variable {ev : Evaluator} {E : Nat → Evaluator}

theorem describe (deep : Deep fun m => ev.fuel ≤ (E m).fuel) {v : Value}
    (within : v.Within sides.bounds) :
    sides.Holds (ev.describe v) (fun m => (E m).describe v) fun _ => True :=
  observe (x := fun ev => ev.describe v) (f := fun s n => Value.display s.results.unlimited n v)
    (fun _ _ => rfl) (fun coupled n => Value.local_describe n within _ _
      (sides.within coupled).results (sides.agree coupled))
    (fun _ _ _ le => Value.sooner_display le v) deep

theorem logTrying (deep : Deep fun m => ev.fuel ≤ (E m).fuel) {p : Parser} {input : Value}
    (parser : p.Within sides.bounds) (read : input.Within sides.bounds) :
    sides.Holds (ev.logTrying p input) (fun m => (E m).logTrying p input) fun _ => True :=
  have shown : (Value.parser p).Within sides.bounds := parser
  (describe deep shown).bind fun _ _ => (describe deep read).bind fun _ _ => record _

theorem logProduced (deep : Deep fun m => ev.fuel ≤ (E m).fuel) {p : Parser}
    (parser : p.Within sides.bounds) (count : Nat) :
    sides.Holds (ev.logProduced p count) (fun m => (E m).logProduced p count) fun _ => True :=
  have shown : (Value.parser p).Within sides.bounds := parser
  (describe deep shown).bind fun _ _ => record _

/-- Uses of a parser run side by side if what they produce does. -/
theorem use (deep : Deep fun m => ev.fuel ≤ (E m).fuel) {p : Parser} {input : Value}
    {Q : List Derivation → Prop} (parser : p.Within sides.bounds)
    (read : input.Within sides.bounds)
    (produced : sides.Holds (ev.produce p input) (fun m => (E m).produce p input) Q) :
    sides.Holds (ev.use p input) (fun m => (E m).use p input) Q := by
  unfold Evaluator.use
  split
  · exact raise _
  · refine branch ((logTrying deep parser read).bind fun _ _ => ?_) produced
    refine produced.bind fun found holds => ?_
    exact (logProduced deep parser found.length).bind fun _ _ => pure holds

end Holds

/-- Evaluations that run side by side, as a comparison. -/
def comparison (sides : Sides) : Comparison where
  World := Unit
  bounds _ := sides.bounds
  Later _ _ := True
  holds _ x y Q := sides.Holds x y (Q ())
  mayAppend := sides.mayAppend
  mayTrace := True
  mayName _ := True

namespace Holds

variable {P Q : α → Prop}

theorem steady {w : Unit} {x : Eval α} {y : Nat → Eval α} (holds : sides.Holds x y P) :
    sides.comparison.steady w x y P :=
  holds.mono fun _ holds => ⟨rfl, holds⟩

/-- Result lists are read to look at those that are the same. -/
theorem reading {f : Results → Eval α} {g : Nat → Results → Eval α}
    (next : ∀ results, results.All (Value.Within sides.bounds) →
      sides.Holds (f results) (fun m => g m results) Q)
    (looks : ∀ m, Results.Local sides.bounds (g m)) :
    sides.Holds (Store.readResults >>= f) (fun m => Store.readResults >>= g m) Q := by
  intro s t coupled
  have all := (sides.within coupled).results
  refine (next s.results all s t coupled).congr (.always fun m => ?_)
  exact congrFun (looks m s.results t.results all (sides.agree coupled)) t

theorem newResult {ds : List Derivation} (all : ∀ d ∈ ds, d.Within sides.bounds) :
    sides.Holds (Store.newResult ds) (fun _ => Store.newResult ds) (Value.Within sides.bounds) :=
  step (fun _ => rfl) (fun coupled => ⟨by rw [sides.size coupled], sides.next coupled⟩)
    (fun coupled => sides.push coupled ds all) fun s => sides.pushed s ds

theorem append (may : sides.mayAppend) {address : Nat} {more : Results → List Derivation}
    (known : sides.bounds.result address) (looks : Results.Local sides.bounds more)
    (all : ∀ results, results.All (Value.Within sides.bounds) →
      ∀ d ∈ more results, d.Within sides.bounds) :
    let append : Eval Unit := do
      let results ← Store.readResults
      Store.setResult address (results.read address ++ more results)
    sides.Holds append (fun _ => append) fun _ => True := by
  refine step (f := fun _ => ()) (g := fun u => { u with
      results := u.results.write address
        (u.results.read address ++ more u.results) }) (fun _ => rfl) (fun _ => ⟨rfl, trivial⟩) ?_
    fun s => sides.appended may s address _
  intro s t coupled
  have within := (sides.within coupled).results
  rw [looks s.results t.results within (sides.agree coupled)]
  exact sides.append may coupled _ known (all s.results within)

theorem readCell (address : Nat) :
    sides.Holds (Store.readCell address) (fun _ => Store.readCell address) fun cell =>
      Value.OptionWithin sides.bounds cell.factory ∧
        ∀ p, cell.definition = some p → p.Within sides.bounds :=
  step (fun _ => rfl) (fun coupled => ⟨cellAt_eq coupled address,
    (sides.within coupled).factory address, (sides.within coupled).definition address⟩)
    (fun coupled => coupled) refl

theorem defineCell (address : Nat) {p : Parser} (parser : p.Within sides.bounds) :
    sides.Holds (Store.defineCell address p) (fun _ => Store.defineCell address p)
      fun _ => True :=
  step (f := fun _ => ()) (fun _ => rfl) (fun _ => ⟨rfl, trivial⟩)
    (fun coupled => sides.settle coupled address p parser)
    fun s => sides.others (s.results_settle address p) (s.objects_settle address p)

theorem lookUp (name : String) :
    sides.Holds (Evaluator.lookUp [] name) (fun _ => Evaluator.lookUp [] name)
      (Value.Within sides.bounds) := by
  intro s t coupled
  simp only [Evaluator.lookUp_nil]
  rcases sides.lookUp coupled name with same | ⟨absent, may⟩
  · rw [same]
    cases found : s.globals.lookup name with
    | none => exact .error coupled (refl _) (.always fun _ => rfl)
    | some v =>
      exact .value ⟨rfl, (sides.within coupled).globals.lookup found⟩ coupled (refl _)
        (.always fun _ => rfl)
  · rw [absent]
    exact .excused coupled (refl _) may

theorem resolve {ev : Evaluator} {E : Nat → Evaluator} {address : Nat} {owner : Value}
    (tracks : sides.comparison.Tracks ev E) (within : owner.Within sides.bounds) :
    sides.Holds (ev.resolve address owner) (fun m => (E m).resolve address owner)
      (Parser.Within sides.bounds) := by
  refine (readCell address).bind fun cell read => ?_
  obtain ⟨made, defined⟩ := read
  cases found : cell.definition with
  | some q => exact pure (defined q found)
  | none =>
    cases factory : cell.factory with
    | none => exact raise _
    | some f =>
      rw [factory] at made
      have given : ∀ v ∈ [owner].take (f.arity 1), v.Within sides.bounds := fun v member =>
        List.mem_singleton.mp (List.mem_of_mem_take member) ▸ within
      refine (supply address (tracks.call () f _ made given)).bind fun v result => ?_
      have parser := Parser.within_asParser.mpr result
      refine (defineCell address parser).bind fun _ _ => branch ?_ (pure parser)
      refine bind (P := fun _ => True) (y := fun m => (E m).logResolved address owner) ?_
        fun _ _ => pure parser
      refine (describe tracks.fuel within).bind fun _ _ => (record _).bind fun _ _ => ?_
      exact step (f := fun _ => ()) (fun _ => rfl) (fun _ => ⟨rfl, trivial⟩)
        (fun coupled => sides.note coupled address .told) fun _ => sides.others rfl rfl

end Holds

theorem lawful (sides : Sides) : sides.comparison.Lawful where
  refl _ := trivial
  trans _ _ := trivial
  wider _ := ⟨fun _ known => known, fun _ may => may⟩
  name _ v _ := sides.name v
  deepen φ grows same holds := Holds.deepen φ grows same holds
  pure := Holds.pure
  bind first second := first.bind fun v holds => second () v trivial holds
  raise := Holds.raise
  outOfFuel := Holds.outOfFuel
  withDebug := Holds.withDebug
  reading next looks := Holds.reading next looks
  newResult := Holds.newResult
  append may known looks all := Holds.steady (Holds.append may known looks all)
  newCell made := Holds.steady (Holds.step (fun _ => rfl)
    (fun coupled => ⟨by rw [sides.cells coupled], trivial⟩)
    (fun coupled => sides.addCell coupled _ made) fun _ => sides.others rfl rfl)
  readCell := Holds.steady ((Holds.readCell _).mono fun _ read => read.2)
  define {_ address v} within := by
    have parser := Parser.within_asParser.mpr within
    refine Holds.steady ((Holds.readCell address).bind fun cell _ => ?_)
    by_cases given : (cell.definition.isSome || cell.factory.isSome) = true
    · simp only [if_pos given]
      exact Holds.bind (P := fun _ => True) (Holds.raise _) fun _ _ =>
        Holds.defineCell address parser
    · simp only [if_neg given]
      exact Holds.defineCell address parser
  lookUp := Holds.steady (Holds.lookUp _)
  record _ := Holds.steady (Holds.record _)
  snapshot {_ ev _ v} deep within := Holds.steady (Holds.observe (x := fun ev => ev.snapshot v)
    (f := fun s n => Value.snapshot s n v) (fun _ _ => rfl) (fun coupled n =>
      Value.snapshot_of_agree (sides.within coupled).results (sides.agree coupled)
        (sides.cells coupled) n within)
    (fun _ _ _ le => Value.sooner_snapshot le v) deep)
  resolve tracks within := Holds.resolve tracks within

theorem uses (sides : Sides) : sides.comparison.Uses := fun grows parser read produced =>
  Holds.use (grows _) parser read (produced () trivial)

end Sides

end GrammarKit
