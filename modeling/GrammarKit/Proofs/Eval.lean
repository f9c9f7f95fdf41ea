import GrammarKit.Store

/-! # Taking evaluations apart

How the outcome of a sequence of evaluations depends on those of its parts: it has a value iff both
parts have one, and it depends on the second part only where the first one leads to it.

`Maintains` is what an evaluation does to an invariant of the store as far as it ends with a value.
Its rules follow the way evaluations are put together, so that every operation has one lemma of
this form and nothing else needs to know how it is defined.
-/

namespace GrammarKit

namespace Except

variable {ε α β : Type}

theorem bind_eq_ok_iff {x : Except ε α} {f : α → Except ε β} {b : β} :
    (x >>= f) = .ok b ↔ ∃ a, x = .ok a ∧ f a = .ok b := by
  cases x with
  | ok a =>
    constructor
    · intro success
      exact ⟨a, rfl, success⟩
    · rintro ⟨_, same, success⟩
      cases same
      exact success
  | error e =>
    constructor
    · intro success
      cases success
    · rintro ⟨_, same, _⟩
      cases same

theorem map_eq_ok_iff {x : Except ε α} {f : α → β} {b : β} :
    f <$> x = .ok b ↔ ∃ a, x = .ok a ∧ f a = b := by
  rw [← bind_pure_comp, bind_eq_ok_iff]
  constructor
  · rintro ⟨a, value, same⟩
    cases same
    exact ⟨a, value, rfl⟩
  · rintro ⟨a, value, rfl⟩
    exact ⟨a, value, rfl⟩

/-- Computations that all have a value have the list of them. -/
theorem mapM_ok (f : α → β) (as : List α) :
    as.mapM (fun a => (.ok (f a) : Except ε β)) = .ok (as.map f) :=
  List.mapM_pure

/-- Computations that are the same one by one are the same as a sequence. -/
theorem mapM_congr {f g : α → Except ε β} {as : List α} (same : ∀ a ∈ as, g a = f a) :
    as.mapM g = as.mapM f := by
  induction as with
  | nil => rfl
  | cons a as ih =>
    obtain ⟨here, others⟩ := List.forall_mem_cons.mp same
    rw [List.mapM_cons, List.mapM_cons, here, ih others]

/-- Computations that all have a value have as many values. -/
theorem length_of_mapM_eq_ok {f : α → Except ε β} {as : List α} {bs : List β}
    (values : as.mapM f = .ok bs) : bs.length = as.length := by
  induction as generalizing bs with
  | nil =>
    cases values
    rfl
  | cons a as ih =>
    rw [List.mapM_cons] at values
    obtain ⟨b, _, values⟩ := bind_eq_ok_iff.mp values
    obtain ⟨bs, others, values⟩ := bind_eq_ok_iff.mp values
    cases values
    rw [List.length_cons, List.length_cons, ih others]

theorem lift_eq_ok_iff {x : Except Error α} {a : α} :
    (liftM x : Except Stop α) = .ok a ↔ x = .ok a := by
  cases x with
  | ok b =>
    constructor
    · intro success
      cases success
      rfl
    · intro same
      cases same
      rfl
  | error e =>
    constructor
    · intro success
      cases success
    · intro same
      cases same

end Except

namespace Eval

variable {α β : Type}

/-- A sequence ends with a value iff its first part does and then its second part. -/
theorem bind_eq_ok_iff {x : Eval α} {f : α → Eval β} {s t : Store} {b : β} :
    (x >>= f) s = .ok b t ↔ ∃ a s', x s = .ok a s' ∧ f a s' = .ok b t := by
  change EStateM.bind x f s = _ ↔ _
  unfold EStateM.bind
  cases x s with
  | ok a s' =>
    constructor
    · intro success
      exact ⟨a, s', rfl, success⟩
    · rintro ⟨_, _, same, success⟩
      cases same
      exact success
  | error stop s' => simp

/-- Two sequences with the same first part agree if their second parts agree where it leads. -/
theorem bind_congr {x : Eval α} {f g : α → Eval β} {s : Store}
    (same : ∀ a s', x s = .ok a s' → f a s' = g a s') : (x >>= f) s = (x >>= g) s := by
  change EStateM.bind x f s = EStateM.bind x g s
  unfold EStateM.bind
  cases found : x s with
  | ok a s' => exact same a s' found
  | error stop s' => rfl

/-- A sequence goes on with the value of its first part, in the store that this leaves. -/
theorem bind_of_eq_ok {x : Eval α} {s t : Store} {a : α} (first : x s = .ok a t)
    (f : α → Eval β) : (x >>= f) s = f a t := by
  change EStateM.bind x f s = _
  rw [EStateM.bind, first]

/-- A sequence ends where its first part does. -/
theorem bind_of_eq_error {x : Eval α} {s t : Store} {stop : Stop} (first : x s = .error stop t)
    (f : α → Eval β) : (x >>= f) s = .error stop t := by
  change EStateM.bind x f s = _
  rw [EStateM.bind, first]

/-- An error is a reason to stop. -/
theorem lift_lift (x : Except Error α) :
    (liftM (liftM x : Except Stop α) : Eval α) = liftM x := by
  cases x <;> rfl

theorem liftStop_eq_ok_iff {x : Except Stop α} {s t : Store} {a : α} :
    (liftM x : Eval α) s = .ok a t ↔ x = .ok a ∧ s = t := by
  cases x with
  | ok b =>
    constructor
    · intro success
      cases success
      exact ⟨rfl, rfl⟩
    · rintro ⟨same, rfl⟩
      cases same
      rfl
  | error stop =>
    constructor
    · intro success
      cases success
    · rintro ⟨same, _⟩
      cases same

/-- A computation without effects has its value in every store, which it leaves as it is. -/
theorem lift_eq_ok_iff {x : Except Error α} {s t : Store} {a : α} :
    (liftM x : Eval α) s = .ok a t ↔ x = .ok a ∧ s = t := by
  rw [← lift_lift, liftStop_eq_ok_iff, Except.lift_eq_ok_iff]

/-- What comes after a computation without effects goes on with its value. -/
theorem lift_bind {x : Except Error α} {a : α} (value : x = .ok a) (f : α → Eval β) (s : Store) :
    (liftM x >>= f) s = f a s := by
  rw [value]
  rfl

theorem liftM_bind (x : Except Error α) (f : α → Except Error β) :
    (liftM (x >>= f) : Eval β) = liftM x >>= fun a => liftM (f a) := by
  cases x <;> rfl

theorem readResults_bind (f : Results → Eval β) (s : Store) :
    (Store.readResults >>= f) s = f s.results s := rfl

theorem pure_eq_ok_iff {a b : α} {s t : Store} :
    (pure a : Eval α) s = .ok b t ↔ a = b ∧ s = t := by
  constructor
  · intro success
    cases success
    exact ⟨rfl, rfl⟩
  · rintro ⟨rfl, rfl⟩
    rfl

/-- Whether an evaluation ends with the value of `r` and leaves the store `t`, or else ends with the
error of `r`. -/
def EndsAs (m : Eval α) (r : Except Error α) (s t : Store) : Prop :=
  match r with
  | .ok a => m s = .ok a t
  | .error e => ∃ u, m s = .error (.error e) u

theorem EndsAs.congr {m m' : Eval α} {r : Except Error α} {s s' t : Store}
    (ends : m.EndsAs r s t) (same : m' s' = m s) : m'.EndsAs r s' t := by
  cases r with
  | ok a => exact same.trans ends
  | error e =>
    obtain ⟨u, raised⟩ := ends
    exact ⟨u, same.trans raised⟩

/-- From stores for which `I` holds, the evaluation leads to such stores, and to values for which
`Q` holds, whenever it ends with a value. -/
def Maintains (I : Store → Prop) (x : Eval α) (Q : α → Prop) : Prop :=
  ∀ s a t, I s → x s = .ok a t → I t ∧ Q a

namespace Maintains

variable {I : Store → Prop} {P Q : α → Prop} {R : β → Prop}

theorem pure {a : α} (holds : Q a) : Maintains I (Pure.pure a) Q := by
  intro s b t start success
  obtain ⟨rfl, rfl⟩ := pure_eq_ok_iff.mp success
  exact ⟨start, holds⟩

theorem bind {x : Eval α} {f : α → Eval β} (first : Maintains I x P)
    (second : ∀ a, P a → Maintains I (f a) R) : Maintains I (x >>= f) R := by
  intro s b t start success
  obtain ⟨a, s', ran, success⟩ := bind_eq_ok_iff.mp success
  obtain ⟨between, holds⟩ := first s a s' start ran
  exact second a holds s' b t between success

theorem mono {x : Eval α} (maintains : Maintains I x P) (weaker : ∀ a, P a → Q a) :
    Maintains I x Q := fun s a t start success =>
  (maintains s a t start success).imp_right (weaker a)

/-- A computation without effects maintains everything. -/
theorem lift {x : Except Error α} (holds : ∀ a, x = .ok a → Q a) : Maintains I (liftM x) Q := by
  intro s a t start success
  obtain ⟨value, rfl⟩ := lift_eq_ok_iff.mp success
  exact ⟨start, holds a value⟩

theorem liftStop {x : Except Stop α} (holds : ∀ a, x = .ok a → Q a) :
    Maintains I (liftM x) Q := by
  intro s a t start success
  obtain ⟨value, rfl⟩ := liftStop_eq_ok_iff.mp success
  exact ⟨start, holds a value⟩

/-- Giving up maintains everything. -/
theorem throw (stop : Stop) : Maintains I (MonadExcept.throw stop : Eval α) Q := by
  intro s a t _ success
  cases success

theorem raise (e : Error) : Maintains I (raise e : Eval α) Q := throw (.error e)

/-- The lists of derivations that are read are those of a store for which the invariant holds. -/
theorem readResults :
    Maintains I Store.readResults fun results => ∃ s, I s ∧ s.results = results := by
  intro s results t start success
  cases success
  exact ⟨start, s, start, rfl⟩

theorem get {Q : Store → Prop} (holds : ∀ s, I s → Q s) :
    Maintains I (MonadState.get : Eval Store) Q := by
  intro s a t start success
  cases success
  exact ⟨start, holds s start⟩

theorem ite {c : Prop} [Decidable c] {x y : Eval α} (yes : c → Maintains I x Q)
    (no : ¬c → Maintains I y Q) : Maintains I (if c then x else y) Q := by
  split
  · exact yes ‹c›
  · exact no ‹¬c›

/-- A change of the store that the invariant allows. -/
theorem update {f : Store → Store} {Q : Unit → Prop} (allowed : ∀ s, I s → I (f s))
    (holds : Q ()) : Maintains I (modify f : Eval Unit) Q := by
  intro s a t start success
  cases success
  exact ⟨allowed s start, holds⟩

end Maintains

end Eval

end GrammarKit
