import GrammarKit.Proofs.Eval

/-! # Evaluations that agree

Two evaluations, run from two stores, agree if they end alike: with the same value or the same
error, in stores that are related again. `Coupling` tells which stores are related. Running out of
depth is no end; the first evaluation may do so whatever becomes of the second one.

The rules follow the way evaluations are put together, as those of `Maintains` do, which is
agreement of an evaluation with itself.
-/

namespace GrammarKit

/-- Whether a computation is the same as another one, unless it runs out of depth. -/
def Sooner {α : Type} (x y : Except Stop α) : Prop := x = .error .outOfFuel ∨ x = y

namespace Sooner

variable {α β : Type} {x y : Except Stop α}

theorem refl (x : Except Stop α) : Sooner x x := .inr rfl

theorem exhausted (y : Except Stop α) : Sooner (.error .outOfFuel) y := .inl rfl

theorem bind {f g : α → Except Stop β} (first : Sooner x y)
    (second : ∀ a, Sooner (f a) (g a)) : Sooner (x >>= f) (y >>= g) := by
  rcases first with rfl | rfl
  · exact exhausted _
  · cases x with
    | ok a => exact second a
    | error stop => exact refl _

theorem mapM {f g : α → Except Stop β} (each : ∀ a, Sooner (f a) (g a)) (as : List α) :
    Sooner (as.mapM f) (as.mapM g) := by
  induction as with
  | nil => exact refl _
  | cons a as ih =>
    rw [List.mapM_cons, List.mapM_cons]
    exact (each a).bind fun b => ih.bind fun bs => refl _

end Sooner

/-- Which stores two evaluations start from and end in, and in which ones they end with an error.
-/
structure Coupling where
  related : Store → Store → Prop
  failed : Store → Store → Prop
  weaker : ∀ s t, related s t → failed s t

namespace Eval

variable {α β : Type} {b : Coupling} {P Q : α → Prop} {R : β → Prop}

/-- Whether two evaluations have ended alike, with a value for which `Q` holds if there is one. -/
inductive Agree (b : Coupling) (Q : α → Prop) :
    EStateM.Result Stop Store α → EStateM.Result Stop Store α → Prop where
  | value {a : α} {s t : Store} : Q a → b.related s t → Agree b Q (.ok a s) (.ok a t)
  | error {e : Error} {s t : Store} : b.failed s t →
    Agree b Q (.error (.error e) s) (.error (.error e) t)
  | exhausted {s : Store} {o : EStateM.Result Stop Store α} :
    Agree b Q (.error .outOfFuel s) o

/-- Whether two evaluations end alike from all stores that are related. -/
def Agrees (b : Coupling) (x y : Eval α) (Q : α → Prop) : Prop :=
  ∀ s t, b.related s t → Agree b Q (x s) (y t)

theorem Agree.mono {o o' : EStateM.Result Stop Store α} (agree : Agree b P o o')
    (weaker : ∀ a, P a → Q a) : Agree b Q o o' := by
  cases agree with
  | value holds related => exact .value (weaker _ holds) related
  | error failed => exact .error failed
  | exhausted => exact .exhausted

namespace Agrees

theorem pure {a : α} (holds : Q a) : Agrees b (Pure.pure a) (Pure.pure a) Q :=
  fun _ _ related => .value holds related

theorem bind {x y : Eval α} {f g : α → Eval β} (first : Agrees b x y P)
    (second : ∀ a, P a → Agrees b (f a) (g a) R) : Agrees b (x >>= f) (y >>= g) R := by
  intro s t related
  have agree := first s t related
  change Agree b R (EStateM.bind x f s) (EStateM.bind y g t)
  unfold EStateM.bind
  generalize x s = o at agree
  generalize y t = o' at agree
  cases agree with
  | value holds between => exact second _ holds _ _ between
  | error failed => exact .error failed
  | exhausted => exact .exhausted

theorem mono {x y : Eval α} (agrees : Agrees b x y P) (weaker : ∀ a, P a → Q a) :
    Agrees b x y Q :=
  fun s t related => (agrees s t related).mono weaker

/-- A computation without effects. -/
theorem lift {x : Except Error α} (holds : ∀ a, x = .ok a → Q a) :
    Agrees b (liftM x) (liftM x) Q := by
  intro s t related
  cases x with
  | ok a => exact .value (holds a rfl) related
  | error e => exact .error (b.weaker s t related)

/-- A computation without effects, the second time with more depth. -/
theorem liftStop {x y : Except Stop α} (sooner : Sooner x y) (holds : ∀ a, x = .ok a → Q a) :
    Agrees b (liftM x) (liftM y) Q := by
  intro s t related
  rcases sooner with rfl | rfl
  · exact .exhausted
  · cases x with
    | ok a => exact .value (holds a rfl) related
    | error stop =>
      cases stop with
      | error e => exact .error (b.weaker s t related)
      | outOfFuel => exact .exhausted

theorem raise (e : Error) : Agrees b (raise e) (raise e) Q :=
  fun s t related => .error (b.weaker s t related)

theorem outOfFuel {y : Eval α} : Agrees b (throw .outOfFuel) y Q := fun _ _ _ => .exhausted

theorem ite {c : Prop} [Decidable c] {x x' y y' : Eval α} (yes : c → Agrees b x x' Q)
    (no : ¬c → Agrees b y y' Q) : Agrees b (if c then x else y) (if c then x' else y') Q := by
  split
  · exact yes ‹c›
  · exact no ‹¬c›

end Agrees

/-- How an evaluation has ended, if it has. -/
def ended : EStateM.Result Stop Store α → Option (Except Error α)
  | .ok a _ => some (.ok a)
  | .error (.error e) _ => some (.error e)
  | .error .outOfFuel _ => none

/-- The store that an evaluation has left. -/
def afterwards : EStateM.Result Stop Store α → Store
  | .ok _ s => s
  | .error _ s => s

/-- Where the first one of two evaluations that agree has ended, the second one has ended alike. -/
theorem Agree.ended_eq {o o' : EStateM.Result Stop Store α} (agree : Agree b Q o o')
    {x : Except Error α} (first : ended o = some x) : ended o' = some x := by
  cases agree with
  | value _ _ | error _ => exact first
  | exhausted => cases first

/-- The coupling of a store with itself, as far as an invariant holds. -/
def Coupling.self (I : Store → Prop) : Coupling where
  related s t := s = t ∧ I s
  failed _ _ := True
  weaker _ _ _ := trivial

/-- To maintain an invariant is to agree with oneself where it holds. -/
theorem agrees_self_iff {I : Store → Prop} {x : Eval α} :
    Agrees (Coupling.self I) x x Q ↔ Maintains I x Q := by
  constructor
  · intro agrees s a t start success
    have agree := agrees s s ⟨rfl, start⟩
    rw [success] at agree
    cases agree with
    | value holds after => exact ⟨after.2, holds⟩
  · rintro maintains s _ ⟨rfl, start⟩
    cases found : x s with
    | ok a t =>
      obtain ⟨after, holds⟩ := maintains s a t start found
      exact .value holds ⟨rfl, after⟩
    | error stop t =>
      cases stop with
      | error e => exact .error trivial
      | outOfFuel => exact .exhausted

end Eval

end GrammarKit
