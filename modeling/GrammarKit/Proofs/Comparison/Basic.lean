import GrammarKit.Evaluation.Interpreter
import GrammarKit.Proofs.Deep
import GrammarKit.Proofs.Depth
import GrammarKit.Proofs.Within.Locality

/-! # Comparing evaluations

Many properties of evaluations are proved along the way evaluations are put together: sequences have
them where their parts do, and what remains are the few operations that read or change the store. A
`Comparison` is a relation of one evaluation to a family of evaluations, one for every depth that
these are given; a property of a single evaluation is a comparison that does not look at the others.
It comes with the bounds that values keep to, which may become wider while the store grows.
`Comparison.Lawful` lists what has to be shown of a comparison for each of those operations. All
the others, and so every evaluation, follow.
-/

namespace GrammarKit

/-- A relation between an evaluation and the evaluations of a family, and to what it applies: what
values keep to, and what evaluations may do. -/
structure Comparison where
  /-- What the relation depends on, as the size of the store. -/
  World : Type
  /-- What values keep to. -/
  bounds : World → Bounds
  /-- Whether a world may come after another one. -/
  Later : World → World → Prop
  /-- Whether the evaluation compares to those of the family; `Q` says what value it gives. -/
  holds : {α : Type} → World → Eval α → (Nat → Eval α) → (World → α → Prop) → Prop
  /-- Whether result lists may be appended to. -/
  mayAppend : Prop
  /-- Whether terms may record what they like. -/
  mayTrace : Prop
  /-- The names that terms may give to parsers. -/
  mayName : Value → Prop

namespace Comparison

variable (c : Comparison) {α β : Type}

/-- Values within bounds. -/
def value (w : c.World) (v : Value) : Prop := v.Within (c.bounds w)

/-- Lists of values within bounds. -/
def values (w : c.World) (vs : List Value) : Prop := ∀ v ∈ vs, v.Within (c.bounds w)

/-- Parsers within bounds. -/
def parser (w : c.World) (p : Parser) : Prop := p.Within (c.bounds w)

/-- Lists of derivations within bounds. -/
def derivations (w : c.World) (ds : List Derivation) : Prop := ∀ d ∈ ds, d.Within (c.bounds w)

/-- Whether an evaluation compares and leaves the world as it is. -/
def steady (w : c.World) (x : Eval α) (y : Nat → Eval α) (P : α → Prop) : Prop :=
  c.holds w x y fun w' a => w' = w ∧ P a

/-- Whether an evaluator compares to a family of evaluators that become deep enough. -/
structure Tracks (ev : Evaluator) (E : Nat → Evaluator) : Prop where
  grows : ∀ k, Deep fun m => k ≤ (E m).fuel
  parse : ∀ w (p : Parser) (input : Value), p.Within (c.bounds w) → input.Within (c.bounds w) →
    c.holds w (ev.parse p input) (fun m => (E m).parse p input) c.derivations
  call : ∀ w (f : Value) (arguments : List Value), f.Within (c.bounds w) →
    c.values w arguments →
      c.holds w (ev.call f arguments) (fun m => (E m).call f arguments) c.value
  eval : ∀ w (scope : Scope) (t : Term), Value.ScopeWithin (c.bounds w) scope →
    c.holds w (ev.eval scope t) (fun m => (E m).eval scope t) c.value

theorem Tracks.fuel {c : Comparison} {ev : Evaluator} {E : Nat → Evaluator}
    (tracks : c.Tracks ev E) : Deep fun m => ev.fuel ≤ (E m).fuel := tracks.grows _

/-- What has to be shown of a comparison: the rules for sequences, and one for each operation that
reads or changes the store. -/
structure Lawful : Prop where
  refl : ∀ w, c.Later w w
  trans : ∀ {w w' w''}, c.Later w w' → c.Later w' w'' → c.Later w w''
  wider : ∀ {w w'}, c.Later w w' → (c.bounds w).Le (c.bounds w')
  name : ∀ w v, c.mayName v → (c.bounds w).name v
  /-- The family counts from some depth on, and at whatever pace it becomes deeper. -/
  deepen : ∀ {α : Type} {w} {x : Eval α} {y y' : Nat → Eval α} {Q} (φ : Nat → Nat),
    (∀ k, Deep fun m => k ≤ φ m) → Deep (fun m => y' m = y (φ m)) → c.holds w x y Q →
      c.holds w x y' Q
  pure : ∀ {α : Type} {w} {a : α} {Q : c.World → α → Prop}, Q w a →
    c.holds w (Pure.pure a) (fun _ => Pure.pure a) Q
  bind : ∀ {α β : Type} {w} {x : Eval α} {y : Nat → Eval α} {P} {f : α → Eval β}
    {g : Nat → α → Eval β} {Q}, c.holds w x y P →
    (∀ w' a, c.Later w w' → P w' a → c.holds w' (f a) (fun m => g m a) Q) →
      c.holds w (x >>= f) (fun m => y m >>= g m) Q
  raise : ∀ {α : Type} {w} {Q : c.World → α → Prop} (e : Error),
    c.holds w (GrammarKit.raise e) (fun _ => GrammarKit.raise e) Q
  outOfFuel : ∀ {α : Type} {w} {y : Nat → Eval α} {Q}, c.holds w (throw .outOfFuel) y Q
  withDebug : ∀ {α : Type} {w} {x : Eval α} {y : Nat → Eval α} {Q}, c.holds w x y Q →
    c.holds w (Store.withDebug x) (fun m => Store.withDebug (y m)) Q
  /-- Result lists are read to look at those within bounds. -/
  reading : ∀ {α : Type} {w} {f : Results → Eval α} {g : Nat → Results → Eval α} {Q},
    (∀ results, results.All (Value.Within (c.bounds w)) →
      c.holds w (f results) (fun m => g m results) Q) →
    (∀ m, Results.Local (c.bounds w) (g m)) →
      c.holds w (Store.readResults >>= f) (fun m => Store.readResults >>= g m) Q
  newResult : ∀ {w} {ds : List Derivation}, c.derivations w ds →
    c.holds w (Store.newResult ds) (fun _ => Store.newResult ds) c.value
  append : ∀ {w address} {more : Results → List Derivation}, c.mayAppend →
    (c.bounds w).result address → Results.Local (c.bounds w) more →
    (∀ results, results.All (Value.Within (c.bounds w)) → c.derivations w (more results)) →
    let append : Eval Unit := do
      let results ← Store.readResults
      Store.setResult address (results.read address ++ more results)
    c.steady w append (fun _ => append) fun _ => True
  newCell : ∀ {w} {factory : Option Value}, Value.OptionWithin (c.bounds w) factory →
    c.steady w (Store.newCell factory) (fun _ => Store.newCell factory) fun _ => True
  readCell : ∀ {w address}, c.steady w (Store.readCell address) (fun _ => Store.readCell address)
    fun cell => ∀ p, cell.definition = some p → p.Within (c.bounds w)
  define : ∀ {w address} {v : Value}, v.Within (c.bounds w) →
    c.steady w (Evaluator.define address v) (fun _ => Evaluator.define address v) fun _ => True
  lookUp : ∀ {w name}, c.steady w (Evaluator.lookUp [] name) (fun _ => Evaluator.lookUp [] name)
    fun v => v.Within (c.bounds w)
  record : ∀ {w entry}, c.mayTrace →
    c.steady w (Store.record entry) (fun _ => Store.record entry) fun _ => True
  snapshot : ∀ {w} {ev : Evaluator} {E : Nat → Evaluator} {v : Value},
    (Deep fun m => ev.fuel ≤ (E m).fuel) → v.Within (c.bounds w) →
    c.steady w (ev.snapshot v) (fun m => (E m).snapshot v) fun _ => True
  resolve : ∀ {w} {ev : Evaluator} {E : Nat → Evaluator} {address} {owner : Value}, c.Tracks ev E →
    owner.Within (c.bounds w) →
      c.holds w (ev.resolve address owner) (fun m => (E m).resolve address owner) c.parser

/-- Whether uses of a parser compare as soon as what they produce does. -/
def Uses : Prop :=
  ∀ {w} {ev : Evaluator} {E : Nat → Evaluator} {p : Parser} {input : Value},
    (∀ k, Deep fun m => k ≤ (E m).fuel) → p.Within (c.bounds w) → input.Within (c.bounds w) →
    (∀ w', c.Later w w' →
      c.holds w' (ev.produce p input) (fun m => (E m).produce p input) c.derivations) →
    c.holds w (ev.use p input) (fun m => (E m).use p input) c.derivations

namespace Lawful

variable {c} (lawful : c.Lawful) {w : c.World} {x : Eval α} {y y' : Nat → Eval α}
  {P Q : c.World → α → Prop}

include lawful

/-- Only the depths from some depth on count. -/
theorem congr (same : Deep fun m => y' m = y m) (holds : c.holds w x y Q) : c.holds w x y' Q :=
  lawful.deepen id Deep.beyond same holds

theorem mono (weaker : ∀ w' a, c.Later w w' → P w' a → Q w' a) (holds : c.holds w x y P) :
    c.holds w x y Q := by
  have sequence := lawful.bind holds (f := Pure.pure) (g := fun _ => Pure.pure) fun w' a later h =>
    lawful.pure (weaker w' a later h)
  simpa only [bind_pure] using sequence

/-- What comes after an evaluation that leaves the world as it is. -/
theorem after {f : α → Eval β} {g : Nat → α → Eval β} {P : α → Prop} {Q : c.World → β → Prop}
    (first : c.steady w x y P) (second : ∀ a, P a → c.holds w (f a) (fun m => g m a) Q) :
    c.holds w (x >>= f) (fun m => y m >>= g m) Q := by
  refine lawful.bind first ?_
  rintro _ a - ⟨rfl, holds⟩
  exact second a holds

theorem holds_of_steady {P : α → Prop} (weaker : ∀ a, P a → Q w a) (steady : c.steady w x y P) :
    c.holds w x y Q := by
  refine lawful.mono ?_ steady
  rintro _ a - ⟨rfl, holds⟩
  exact weaker a holds

/-- A computation without effects. -/
theorem lift {x : Except Error α} {P : α → Prop} (holds : ∀ a, x = .ok a → P a) :
    c.steady w (liftM x) (fun _ => liftM x) P := by
  cases x with
  | ok a => exact lawful.pure ⟨rfl, holds a rfl⟩
  | error e => exact lawful.raise e

/-- A computation without effects that takes some depth. -/
theorem liftStop {f : Nat → Except Stop α} {k : Nat} {F : Nat → Nat} {P : α → Prop}
    (sooner : ∀ m, k ≤ m → Sooner (f k) (f m)) (deep : Deep fun m => k ≤ F m)
    (holds : ∀ a, f k = .ok a → P a) :
    c.steady w (liftM (f k)) (fun m => liftM (f (F m))) P := by
  have same (stop : f k ≠ .error .outOfFuel) :
      Deep fun m => (liftM (f (F m)) : Eval α) = liftM (f k) :=
    deep.mono fun m le => ((sooner (F m) le).resolve_left stop) ▸ rfl
  cases found : f k with
  | ok a =>
    refine lawful.congr (y := fun _ => Pure.pure a) ?_ (lawful.pure ⟨rfl, holds a found⟩)
    exact (same (by simp [found])).mono fun m here => here.trans (found ▸ rfl)
  | error stop =>
    cases stop with
    | error e =>
      refine lawful.congr (y := fun _ => GrammarKit.raise e) ?_ (lawful.raise e)
      exact (same (by simp [found])).mono fun m here => here.trans (found ▸ rfl)
    | outOfFuel => exact lawful.outOfFuel

/-- What is computed from the result lists within bounds. -/
theorem observe {f : Results → Except Error α} {P : α → Prop}
    (looks : Results.Local (c.bounds w) f)
    (value : ∀ results, results.All (Value.Within (c.bounds w)) → ∀ a, f results = .ok a → P a) :
    c.steady w (Store.readResults >>= fun results => liftM (f results))
      (fun _ => Store.readResults >>= fun results => liftM (f results)) P :=
  lawful.reading (fun results store => lawful.lift (value results store)) fun _ =>
    looks.map fun x => (liftM x : Eval α)

/-- What is computed from the result lists within bounds, which takes some depth. -/
theorem observeStop {f : Nat → Results → Except Stop α} {k : Nat} {F : Nat → Nat} {P : α → Prop}
    (looks : ∀ n, Results.Local (c.bounds w) (f n))
    (sooner : ∀ results m, k ≤ m → Sooner (f k results) (f m results))
    (deep : Deep fun m => k ≤ F m)
    (value : ∀ results, results.All (Value.Within (c.bounds w)) → ∀ a, f k results = .ok a → P a) :
    c.steady w (Store.readResults >>= fun results => liftM (f k results))
      (fun m => Store.readResults >>= fun results => liftM (f (F m) results)) P :=
  lawful.reading (fun results store => lawful.liftStop (f := fun n => f n results)
    (sooner results) deep (value results store)) fun m =>
      (looks (F m)).map fun x => (liftM x : Eval α)

/-- What comes after a computation from the result lists within bounds. -/
theorem look {f : Results → Except Error α} {k : α → Eval β} {k' : Nat → α → Eval β}
    {P : α → Prop} {Q : c.World → β → Prop} (looks : Results.Local (c.bounds w) f)
    (value : ∀ results, results.All (Value.Within (c.bounds w)) → ∀ a, f results = .ok a → P a)
    (next : ∀ a, P a → c.holds w (k a) (fun m => k' m a) Q) :
    c.holds w (Store.readResults >>= fun results => liftM (f results) >>= k)
      (fun m => Store.readResults >>= fun results => liftM (f results) >>= k' m) Q := by
  simpa only [bind_assoc] using lawful.after (lawful.observe looks value) next

/-- The same for two computations from the same result lists. -/
theorem lookTwice {f : Results → Except Error α} {g : Results → α → Except Error β}
    {γ : Type} {k : β → Eval γ} {k' : Nat → β → Eval γ} {P : α → Prop} {R : β → Prop}
    {Q : c.World → γ → Prop} (looks : Results.Local (c.bounds w) f)
    (value : ∀ results, results.All (Value.Within (c.bounds w)) → ∀ a, f results = .ok a → P a)
    (looks' : ∀ a, P a → Results.Local (c.bounds w) fun results => g results a)
    (value' : ∀ results, results.All (Value.Within (c.bounds w)) → ∀ a, P a →
      ∀ b, g results a = .ok b → R b)
    (next : ∀ b, R b → c.holds w (k b) (fun m => k' m b) Q) :
    c.holds w
      (Store.readResults >>= fun results => liftM (f results) >>= fun a =>
        liftM (g results a) >>= k)
      (fun m => Store.readResults >>= fun results => liftM (f results) >>= fun a =>
        liftM (g results a) >>= k' m) Q := by
  have both := lawful.look (looks.bind value looks') (fun results store b found => by
    obtain ⟨a, first, second⟩ := Except.bind_eq_ok_iff.mp found
    exact value' results store a (value results store a first) b second) next
  simpa only [Eval.liftM_bind, bind_assoc] using both

/-- What comes after a computation from the result lists within bounds, which takes some depth. -/
theorem lookStop {f : Nat → Results → Except Stop α} {n : Nat} {F : Nat → Nat} {k : α → Eval β}
    {k' : Nat → α → Eval β} {P : α → Prop} {Q : c.World → β → Prop}
    (looks : ∀ n, Results.Local (c.bounds w) (f n))
    (sooner : ∀ results m, n ≤ m → Sooner (f n results) (f m results))
    (deep : Deep fun m => n ≤ F m)
    (value : ∀ results, results.All (Value.Within (c.bounds w)) → ∀ a, f n results = .ok a → P a)
    (next : ∀ a, P a → c.holds w (k a) (fun m => k' m a) Q) :
    c.holds w (Store.readResults >>= fun results => liftM (f n results) >>= k)
      (fun m => Store.readResults >>= fun results => liftM (f (F m) results) >>= k' m) Q := by
  simpa only [bind_assoc] using lawful.after (lawful.observeStop looks sooner deep value) next

omit lawful in
theorem ite {p : Prop} [Decidable p] {x x' : Eval α} (yes : p → c.holds w x y Q)
    (no : ¬p → c.holds w x' y' Q) :
    c.holds w (if p then x else x') (fun m => if p then y m else y' m) Q := by
  split
  · exact yes ‹p›
  · exact no ‹¬p›

end Lawful

end Comparison

end GrammarKit
