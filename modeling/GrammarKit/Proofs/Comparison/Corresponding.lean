import GrammarKit.Proofs.Choices.Attempts
import Mathlib.Data.List.Forall2

/-! # Evaluations that correspond

Two evaluations that are put together in the same way come to related values if their parts do. They
start from the same store and have to lead to the same one, and an error of the one is the same
error of the other, so nothing that they do can tell them apart but what they give. `Carries` is one
direction of that, from an evaluation to those of a family, one for every depth; it is `Lasts` for
two evaluations in the place of one. `Corresponds` are both directions. Only stores in some set are
looked at, which what is evaluated does not lead out of.
-/

namespace GrammarKit

namespace Except

variable {ε α β γ δ : Type} {R : α → β → Prop} {T : γ → δ → Prop}

/-- Whether two computations come to related values or to the same error. -/
inductive Corresponds (R : α → β → Prop) : Except ε α → Except ε β → Prop where
  | ok {a : α} {b : β} : R a b → Corresponds R (.ok a) (.ok b)
  | error (e : ε) : Corresponds R (.error e) (.error e)

theorem Corresponds.bind {x : Except ε α} {y : Except ε β} {f : α → Except ε γ}
    {g : β → Except ε δ} (first : Corresponds R x y)
    (second : ∀ a b, R a b → Corresponds T (f a) (g b)) : Corresponds T (x >>= f) (y >>= g) := by
  cases first with
  | ok related => exact second _ _ related
  | error e => exact .error e

theorem Corresponds.symm {x : Except ε α} {y : Except ε β} (corresponds : Corresponds R x y) :
    Corresponds (flip R) y x := by
  cases corresponds with
  | ok related => exact .ok related
  | error e => exact .error e

theorem Corresponds.mapM {f : α → Except ε γ} {g : β → Except ε δ} {as : List α} {bs : List β}
    (each : ∀ a b, R a b → Corresponds T (f a) (g b)) (related : List.Forall₂ R as bs) :
    Corresponds (List.Forall₂ T) (as.mapM f) (bs.mapM g) := by
  induction related with
  | nil => exact .ok .nil
  | cons here _ ih =>
    rw [List.mapM_cons, List.mapM_cons]
    exact (each _ _ here).bind fun c d first => ih.bind fun cs ds others =>
      .ok (.cons first others)

end Except

namespace Eval

variable {α β γ δ : Type}

/-- How an evaluation ends, and with it those of a family from some depth on: with related values
and the same store, or with the same error and the same store. -/
inductive Carried (I : Store → Prop) (R : α → β → Prop) (y : Nat → EStateM.Result Stop Store β) :
    EStateM.Result Stop Store α → Prop where
  | value {a : α} {b : β} {t : Store} : R a b → I t → (Deep fun m => y m = .ok b t) →
    Carried I R y (.ok a t)
  | error {e : Error} {t : Store} : (Deep fun m => y m = .error (.error e) t) →
    Carried I R y (.error (.error e) t)
  | exhausted {t : Store} : Carried I R y (.error .outOfFuel t)

/-- Whether what an evaluation comes to carries over to a family of evaluations. -/
def Carries (I : Store → Prop) (R : α → β → Prop) (x : Eval α) (y : Nat → Eval β) : Prop :=
  ∀ s, I s → Carried I R (fun m => y m s) (x s)

namespace Carries

variable {I : Store → Prop} {R R' : α → β → Prop} {T : γ → δ → Prop} {x x' : Eval α}
  {y y' : Nat → Eval β}

theorem pure {a : α} {b : β} (related : R a b) :
    Carries I R (Pure.pure a) fun _ => Pure.pure b :=
  fun _ start => .value related start (.always fun _ => rfl)

theorem raise (e : Error) : Carries I R (raise e) fun _ => raise e :=
  fun _ _ => .error (.always fun _ => rfl)

theorem outOfFuel : Carries I R (throw .outOfFuel) y := fun _ _ => .exhausted

theorem bind {f : α → Eval γ} {g : Nat → β → Eval δ} (first : Carries I R x y)
    (second : ∀ a b, R a b → Carries I T (f a) fun m => g m b) :
    Carries I T (x >>= f) fun m => y m >>= g m := by
  intro s start
  have here := first s start
  generalize found : x s = o at here
  cases here with
  | @value a b t related between deep =>
    rw [bind_of_eq_ok found]
    have there := second a b related t between
    generalize f a t = o at there
    cases there with
    | value related' after deep' =>
      exact .value related' after (deep.both deep' fun m here there =>
        (bind_of_eq_ok here _).trans there)
    | error deep' =>
      exact .error (deep.both deep' fun m here there => (bind_of_eq_ok here _).trans there)
    | exhausted => exact .exhausted
  | error deep =>
    rw [bind_of_eq_error found]
    exact .error (deep.mono fun m here => bind_of_eq_error here _)
  | exhausted =>
    rw [bind_of_eq_error found]
    exact .exhausted

theorem mono (carries : Carries I R x y) (weaker : ∀ a b, R a b → R' a b) :
    Carries I R' x y := by
  intro s start
  have here := carries s start
  generalize x s = o at here
  cases here with
  | value related after deep => exact .value (weaker _ _ related) after deep
  | error deep => exact .error deep
  | exhausted => exact .exhausted

/-- Of the family it counts what it comes to from some depth on. -/
theorem family (carries : Carries I R x y)
    (same : ∀ s o, I s → (Deep fun m => y m s = o) → Deep fun m => y' m s = o) :
    Carries I R x y' := by
  intro s start
  have here := carries s start
  generalize x s = o at here
  cases here with
  | value related after deep => exact .value related after (same s _ start deep)
  | error deep => exact .error (same s _ start deep)
  | exhausted => exact .exhausted

/-- Only the stores that evaluations start from count. -/
theorem congr (carries : Carries I R x y) (same : ∀ s, I s → x' s = x s)
    (same' : ∀ m s, I s → y' m s = y m s) : Carries I R x' y' := by
  have others : Carries I R x y' := carries.family fun s o start deep =>
    deep.mono fun m here => (same' m s start).trans here
  intro s start
  rw [same s start]
  exact others s start

/-- What is computed without effects. -/
theorem lift {x : Except Error α} {y : Except Error β} (corresponds : Except.Corresponds R x y) :
    Carries I R (liftM x) fun _ => liftM y := by
  cases corresponds with
  | ok related => exact .pure related
  | error e => exact .raise e

theorem readResults_bind {f : Results → Eval α} {g : Nat → Results → Eval β}
    (second : ∀ results, Carries I R (f results) fun m => g m results) :
    Carries I R (Store.readResults >>= f) fun m => Store.readResults >>= g m :=
  fun s start => second s.results s start

/-- An evaluation carries over to deeper ones of its own. -/
theorem of_lasts {y : Nat → Eval α} {P : α → Prop} (lasts : Lasts x y)
    (maintains : Maintains I x P) : Carries I (fun a b => b = a ∧ P a) x y := by
  intro s start
  cases found : x s with
  | ok a t =>
    obtain ⟨after, holds⟩ := maintains s a t start found
    exact .value ⟨rfl, holds⟩ after ((lasts s (by simp [found])).mono fun m same =>
      same.trans found)
  | error stop t =>
    cases stop with
    | error e => exact .error ((lasts s (by simp [found])).mono fun m same => same.trans found)
    | outOfFuel => exact .exhausted

theorem ite {c : Prop} [Decidable c] (yes : c → Carries I R x y) (no : ¬c → Carries I R x' y') :
    Carries I R (if c then x else x') fun m => if c then y m else y' m := by
  split
  · exact yes ‹c›
  · exact no ‹¬c›

theorem branch (yes : Carries I R x y) (no : Carries I R x' y') :
    Carries I R (do if (← get).debug then x else x')
      (fun m => do if (← get).debug then y m else y' m) := by
  intro s start
  simp only [branch_apply]
  split
  · exact yes s start
  · exact no s start

end Carries

end Eval

open Eval (Carries Lasts Maintains)

/-! ## Repetitions -/

/-- Whether two derivations leave the same of the input, which is one of `inputs`, and have related
values. -/
structure Derivation.Related (V : Value → Value → Prop) (inputs : Value → Prop)
    (d d' : Derivation) : Prop where
  value : V d.value d'.value
  remainder : d'.remainder = d.remainder
  left : inputs d.remainder

/-- Whether two paths are as high and leave the same of the input, and are of related values. -/
structure Path.Related (V : Value → Value → Prop) (inputs : Value → Prop) (path path' : Path) :
    Prop where
  values : List.Forall₂ V path.values path'.values
  remainder : path'.remainder = path.remainder
  height : path'.height = path.height
  left : inputs path.remainder

section

variable {I : Store → Prop} {V W : Value → Value → Prop} {inputs : Value → Prop}

/-- Where a path goes on depends on what is left of the input, not on the values. -/
theorem Path.Related.extendAll {path path' : Path} {ds ds' : List Derivation}
    (related : Path.Related V inputs path path') (results : Results)
    (all : List.Forall₂ (Derivation.Related V inputs) ds ds') :
    Except.Corresponds (List.Forall₂ (Path.Related V inputs)) (path.extendAll results ds)
      (path'.extendAll results ds') := by
  refine Except.Corresponds.mapM (fun d d' here => ?_) all
  rw [Path.extend, Path.extend, here.remainder, related.remainder]
  cases d.remainder.length results with
  | error e => exact .error e
  | ok left =>
    cases path.remainder.length results with
    | error e => exact .error e
    | ok before => exact .ok ⟨.cons here.value related.values, rfl, rfl, here.left⟩

theorem Derivation.related_flip {ds ds' : List Derivation}
    (all : List.Forall₂ (Derivation.Related V inputs) ds ds') :
    List.Forall₂ (Derivation.Related (flip V) inputs) ds' ds :=
  (all.imp fun _ _ here => ⟨here.value, here.remainder.symm, here.remainder ▸ here.left⟩).flip

theorem isEmpty_eq_of_forall₂ {α β : Type} {R : α → β → Prop} {as : List α} {bs : List β}
    (related : List.Forall₂ R as bs) : bs.isEmpty = as.isEmpty := by
  cases related <;> rfl

theorem Path.forall_low_iff {path path' : Path} {opened opened' : List Path}
    (related : Path.Related V inputs path path')
    (all : List.Forall₂ (Path.Related V inputs) opened opened') :
    (∀ p ∈ opened', p.height < path'.height) ↔ ∀ p ∈ opened, p.height < path.height := by
  rw [related.height]
  induction all with
  | nil => simp
  | cons here _ ih => rw [List.forall_mem_cons, List.forall_mem_cons, here.height, ih]

/-- Repetitions of steps that carry over carry over, whatever is on the agendas. -/
theorem Eval.Carries.explore {step : Value → Eval (List Derivation)}
    {step' : Nat → Value → Eval (List Derivation)}
    {finish finish' : List Value → Except Error Value}
    (steps : ∀ v, inputs v → Carries I (List.Forall₂ (Derivation.Related V inputs)) (step v)
      fun m => step' m v)
    (finishes : ∀ vs vs', List.Forall₂ V vs vs' → Except.Corresponds W (finish vs) (finish' vs'))
    (budget : Nat) (agenda : List Path) (out : List Derivation) :
    ∀ {agenda' : List Path} {out' : List Derivation} {B : Nat → Nat},
      (Deep fun m => budget ≤ B m) → List.Forall₂ (Path.Related V inputs) agenda agenda' →
      List.Forall₂ (Derivation.Related W inputs) out out' →
        Carries I (List.Forall₂ (Derivation.Related W inputs))
          (GrammarKit.explore step finish budget agenda out)
          fun m => GrammarKit.explore (step' m) finish' (B m) agenda' out' := by
  have finished {path path' : Path} (related : Path.Related V inputs path path') :
      Carries I W (liftM (finish path.values.reverse))
        fun _ => liftM (finish' path'.values.reverse) :=
    .lift (finishes _ _ (List.rel_reverse related.values))
  induction budget, agenda, out using explore.induct with
  | case1 budget out =>
    intro agenda' out' B _ waiting ended
    cases waiting
    simp only [GrammarKit.explore]
    exact .pure (List.rel_reverse ended)
  | case2 budget out path rest zero ih =>
    intro agenda' out' B deep waiting ended
    cases waiting with
    | @cons _ path' _ rest' here others =>
      have zero' : path'.height = 0 := here.height.trans zero
      simp only [GrammarKit.explore, if_pos zero, if_pos zero']
      refine (finished here).bind fun value value' related => ?_
      exact ih value deep others (.cons ⟨related, here.remainder, here.left⟩ ended)
  | case3 budget out path rest opened dropped stopped replaced spent =>
    intro agenda' out' B deep waiting ended
    cases waiting with
    | @cons _ path' _ rest' here others =>
      have opened' : ¬ path'.height = 0 := here.height ▸ opened
      simp only [GrammarKit.explore, if_neg opened, if_neg opened', here.remainder]
      refine (steps path.remainder here.left).bind fun found found' all => ?_
      rw [isEmpty_eq_of_forall₂ all, isEmpty_eq_of_forall₂ here.values]
      refine .ite (fun _ => .ite (fun _ => ?_) fun _ => ?_) fun _ => ?_
      · exact dropped deep others ended
      · refine (finished here).bind fun value value' related => ?_
        exact stopped value deep others (.cons ⟨related, rfl, here.left⟩ ended)
      · refine .readResults_bind fun results => ?_
        refine (Carries.lift (here.extendAll results all)).bind fun longer longer' extended => ?_
        have further := List.rel_append extended others
        by_cases low : ∀ p ∈ longer, p.height < path.height
        · have low' := (Path.forall_low_iff here extended).mpr low
          simp only [dif_pos low, dif_pos low']
          exact replaced longer low deep further ended
        · have low' := fun all => low ((Path.forall_low_iff here extended).mp all)
          simp only [dif_neg low, dif_neg low']
          cases budget with
          | zero => exact .outOfFuel
          | succ budget =>
            refine (spent longer (deep.mono fun m le => Nat.le_sub_of_add_le le) further
              ended).family fun s o _ deep' => deep.both deep' fun m le same => ?_
            obtain ⟨k, above⟩ : ∃ k, B m = k + 1 := ⟨B m - 1, by omega⟩
            rw [above] at same ⊢
            exact same

end

/-! ## Both directions -/

/-- Whether two evaluations come to an end together, and then to the same one but for the values,
which are related. -/
structure Corresponds {α β : Type} (I : Store → Prop) (R : α → β → Prop) (m : Evaluator → Eval α)
    (m' : Evaluator → Eval β) : Prop where
  there : ∀ n, Carries I R (m (evaluator n)) fun k => m' (evaluator k)
  back : ∀ n, Carries I (flip R) (m' (evaluator n)) fun k => m (evaluator k)

namespace Corresponds

variable {α β γ δ : Type} {I : Store → Prop} {R : α → β → Prop} {T : γ → δ → Prop}
  {m l : Evaluator → Eval α} {m' l' : Evaluator → Eval β}

theorem symm (corresponds : Corresponds I R m m') : Corresponds I (flip R) m' m :=
  ⟨corresponds.back, corresponds.there⟩

theorem pure {a : α} {b : β} (related : R a b) :
    Corresponds I R (fun _ => Pure.pure a) fun _ => Pure.pure b :=
  ⟨fun _ => .pure related, fun _ => .pure related⟩

theorem raise (e : Error) : Corresponds I R (fun _ => raise e) fun _ => raise e :=
  ⟨fun _ => .raise e, fun _ => .raise e⟩

theorem bind {k : Evaluator → α → Eval γ} {k' : Evaluator → β → Eval δ}
    (first : Corresponds I R m m')
    (second : ∀ a b, R a b → Corresponds I T (fun ev => k ev a) fun ev => k' ev b) :
    Corresponds I T (fun ev => m ev >>= k ev) fun ev => m' ev >>= k' ev :=
  ⟨fun n => (first.there n).bind fun a b related => (second a b related).there n,
    fun n => (first.back n).bind fun b a related => (second a b related).back n⟩

theorem congr (corresponds : Corresponds I R m m')
    (same : ∀ n s, I s → l (evaluator n) s = m (evaluator n) s)
    (same' : ∀ n s, I s → l' (evaluator n) s = m' (evaluator n) s) : Corresponds I R l l' :=
  ⟨fun n => (corresponds.there n).congr (same n) same',
    fun n => (corresponds.back n).congr (same' n) same⟩

/-- The evaluators that an evaluator uses are those of the depth before. -/
theorem deeper (corresponds : Corresponds I R m m')
    (none : l (evaluator 0) = throw .outOfFuel)
    (next : ∀ n, l (evaluator (n + 1)) = m (evaluator n)) : Corresponds I R l m' := by
  constructor
  · intro n
    cases n with
    | zero =>
      rw [none]
      exact .outOfFuel
    | succ n =>
      rw [next]
      exact corresponds.there n
  · exact fun n => (corresponds.back n).family fun s o _ deep =>
      .of_succ (deep.mono fun k here => (congrFun (next k) s).trans here)

theorem ite {c : Prop} [Decidable c] (yes : c → Corresponds I R m m')
    (no : ¬c → Corresponds I R l l') :
    Corresponds I R (fun ev => if c then m ev else l ev) fun ev => if c then m' ev else l' ev := by
  split
  · exact yes ‹c›
  · exact no ‹¬c›

theorem branch (yes : Corresponds I R m m') (no : Corresponds I R l l') :
    Corresponds I R (fun ev => do if (← get).debug then m ev else l ev)
      (fun ev => do if (← get).debug then m' ev else l' ev) :=
  ⟨fun n => (yes.there n).branch (no.there n), fun n => (yes.back n).branch (no.back n)⟩

/-- An evaluation corresponds to itself if deeper evaluators make no difference once it has come to
an end. -/
theorem self {P : α → Prop}
    (lasts : ∀ n, Lasts (m (evaluator n)) fun k => m (evaluator k))
    (maintains : ∀ n, Maintains I (m (evaluator n)) P) :
    Corresponds I (fun a b => b = a ∧ P a) m m := by
  refine ⟨fun n => .of_lasts (lasts n) (maintains n), fun n => ?_⟩
  refine (Carries.of_lasts (lasts n) (maintains n)).mono ?_
  rintro a _ ⟨rfl, holds⟩
  exact ⟨rfl, holds⟩

/-- What has a value and no effects corresponds to that value. -/
theorem of_deep {a : α} {b : β} (lasts : ∀ n, Lasts (m' (evaluator n)) fun k => m' (evaluator k))
    (value : ∀ s, I s → Deep fun n => m' (evaluator n) s = .ok b s) (related : R a b) :
    Corresponds I R (fun _ => Pure.pure a) m' := by
  constructor
  · exact fun n s start => .value related start (value s start)
  · intro n s start
    by_cases ended : ∀ t, m' (evaluator n) s ≠ .error .outOfFuel t
    · obtain ⟨depth, same⟩ := (lasts n s ended).both (value s start) fun k same here =>
        same.symm.trans here
      rw [same depth (Nat.le_refl depth)]
      exact .value related start (.always fun _ => rfl)
    · obtain ⟨t, out⟩ := not_forall_not.mp ended
      rw [out]
      exact .exhausted

/-! ## Parts of a use -/

section

variable {V W : Value → Value → Prop} {inputs values : Value → Prop} {x : Value} {p p' : Parser}

theorem mapValues {g g' : Value}
    (calls : ∀ v, values v →
      Corresponds I V (fun ev => ev.call g [v]) fun ev => ev.call g' [v])
    (ds : List Derivation) (all : ∀ d ∈ ds, values d.value ∧ inputs d.remainder) :
    Corresponds I (List.Forall₂ (Derivation.Related V inputs)) (fun ev => ev.mapValues g ds)
      fun ev => ev.mapValues g' ds := by
  induction ds with
  | nil => exact .pure .nil
  | cons d ds ih =>
    obtain ⟨⟨here, left⟩, others⟩ := List.forall_mem_cons.mp all
    exact (calls d.value here).bind fun v v' related => (ih others).bind fun ds ds' rest =>
      .pure (.cons ⟨related, rfl, left⟩ rest)

/-- Choices between corresponding parsers. -/
theorem firstOf {φ : Parser → Parser} {ps : List Parser}
    (each : ∀ p ∈ ps, Corresponds I (List.Forall₂ (Derivation.Related V inputs))
      (fun ev => ev.parse p x) fun ev => ev.parse (φ p) x) :
    Corresponds I (List.Forall₂ (Derivation.Related V inputs)) (fun ev => ev.firstOf x ps)
      fun ev => ev.firstOf x (ps.map φ) := by
  induction ps with
  | nil => exact .pure .nil
  | cons p ps ih =>
    obtain ⟨here, others⟩ := List.forall_mem_cons.mp each
    refine here.bind fun ds ds' related => ?_
    rw [isEmpty_eq_of_forall₂ related]
    exact .ite (fun _ => ih others) fun _ => .pure related

/-- Repetitions of corresponding parsers. -/
theorem repeatParser {accumulate : Value}
    (steps : ∀ v, inputs v → Corresponds I (List.Forall₂ (Derivation.Related V inputs))
      (fun ev => ev.parse p v) fun ev => ev.parse p' v)
    (finishes : ∀ vs vs', List.Forall₂ V vs vs' → Except.Corresponds W
      (accumulateValues accumulate vs) (accumulateValues accumulate vs'))
    (read : inputs x) :
    Corresponds I (List.Forall₂ (Derivation.Related W inputs))
      (fun ev => GrammarKit.repeatParser (ev.parse p) accumulate ev.fuel x)
      fun ev => GrammarKit.repeatParser (ev.parse p') accumulate ev.fuel x := by
  have fuel (n : Nat) : Deep fun m => (evaluator n).fuel ≤ (evaluator m).fuel :=
    (Evaluator.tracks_deeper n).fuel
  constructor
  · refine fun n => .readResults_bind fun results => ?_
    exact .explore (fun v inside => (steps v inside).there n) finishes _ _ _ (fuel n)
      (.cons ⟨.nil, rfl, rfl, read⟩ .nil) .nil
  · refine fun n => .readResults_bind fun results => ?_
    refine .mono (.explore (V := flip V) (W := flip W)
      (fun v inside => ((steps v inside).back n).mono fun _ _ => Derivation.related_flip)
      (fun vs vs' related => (finishes vs' vs related.flip).symm) _ _ _ (fuel n)
      (.cons ⟨.nil, rfl, rfl, read⟩ .nil) .nil) fun _ _ => Derivation.related_flip

/-- Uses of parsers that are shown alike and produce as many derivations. -/
theorem parse (quiet : Store.Quiet I) {R : List Derivation → List Derivation → Prop}
    (actual : p'.isForeign = p.isForeign)
    (shown : ∀ results fuel, (Value.parser p').display results fuel =
      (Value.parser p).display results fuel)
    (counted : ∀ ds ds', R ds ds' → ds'.length = ds.length)
    (produced : Corresponds I R (fun ev => ev.produce p x) fun ev => ev.produce p' x) :
    Corresponds I R (fun ev => ev.parse p x) fun ev => ev.parse p' x := by
  have same (ev : Evaluator) : ev.describe (.parser p') = ev.describe (.parser p) := by
    simp only [Evaluator.describe, shown]
  have tried (ev : Evaluator) : ev.logTrying p' x = ev.logTrying p x := by
    simp only [Evaluator.logTrying, same]
  have told (ev : Evaluator) (n : Nat) : ev.logProduced p' n = ev.logProduced p n := by
    simp only [Evaluator.logProduced, same]
  have fuel (n : Nat) : Deep fun m => (evaluator n).fuel ≤ (evaluator m).fuel :=
    (Evaluator.tracks_deeper n).fuel
  have used : Corresponds I R (fun ev => ev.use p x) fun ev => ev.use p' x := by
    simp only [Evaluator.use, actual, tried, told]
    cases p.isForeign with
    | true => exact .raise _
    | false =>
      have before : Corresponds I (fun a b => b = a ∧ True) (fun ev => ev.logTrying p x)
          fun ev => ev.logTrying p x :=
        .self (fun n => .logTrying (fuel n) p x) fun n => Evaluator.maintains_logTrying quiet p x
      have after (n : Nat) : Corresponds I (fun a b => b = a ∧ True)
          (fun ev => ev.logProduced p n) fun ev => ev.logProduced p n :=
        .self (fun k => .logProduced (fuel k) p n) fun k =>
          Evaluator.maintains_logProduced quiet p n
      refine .branch (before.bind fun _ _ _ => produced.bind fun ds ds' related => ?_) produced
      rw [counted ds ds' related]
      exact (after ds.length).bind fun _ _ _ => .pure related
  have parsed : Corresponds I R (fun ev => ev.parse p x) fun ev => ev.use p' x :=
    used.deeper rfl fun _ => rfl
  exact (parsed.symm.deeper rfl fun _ => rfl).symm

end

end Corresponds

/-- A run of a parser to whose runs those of another one carry over is a run of that one, too. -/
theorem Parser.Ends.carried {I : Store → Prop} {p p' : Parser} {x : Value} {s t : Store}
    {r : Except Error (List Derivation)} (ends : p.Ends x s r t) (start : I s)
    (carries : ∀ n, Carries I (fun ds ds' => ds' = ds) ((evaluator n).parse p x)
      fun m => (evaluator m).parse p' x) : p'.Ends x s r t := by
  obtain ⟨n, ran⟩ := ends
  have here := carries n s start
  rw [ran] at here
  cases r with
  | ok ds =>
    cases here with
    | value related _ deep =>
      obtain ⟨depth, same⟩ := deep
      exact ⟨depth, related ▸ same depth (Nat.le_refl depth)⟩
  | error e =>
    cases here with
    | error deep =>
      obtain ⟨depth, same⟩ := deep
      exact ⟨depth, same depth (Nat.le_refl depth)⟩

/-- Corresponding parsers with equal derivations have the same runs. -/
theorem Corresponds.ends_iff {I : Store → Prop} {p p' : Parser} {x : Value} {s t : Store}
    {r : Except Error (List Derivation)}
    (corresponds : Corresponds I Eq (fun ev => ev.parse p x) fun ev => ev.parse p' x)
    (start : I s) : p.Ends x s r t ↔ p'.Ends x s r t :=
  ⟨fun ends => ends.carried start fun n => (corresponds.there n).mono fun _ _ same => same.symm,
    fun ends => ends.carried start fun n => (corresponds.back n).mono fun _ _ same => same⟩

end GrammarKit
