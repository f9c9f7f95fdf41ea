import GrammarKit.Evaluation.Method
import GrammarKit.Evaluation.Snapshot
import GrammarKit.Proofs.Agreement

/-! # Depth makes no difference to values

Showing, comparing and calculating with values nests as deep as they do, which the depth bounds.
More depth changes nothing about what has come to an end.
-/

namespace GrammarKit.Value

variable {results : Results} {n m : Nat}

section

variable {inner inner' : Value → Except Stop (List Char)}

theorem sooner_showShape (each : ∀ v, Sooner (inner v) (inner' v)) (shape : Shape) :
    Sooner (showShape inner shape) (showShape inner' shape) := by
  cases shape with
  | unit v =>
    cases v with
    | missing => exact .refl _
    | _ => exact (each _).bind fun _ => .refl _
  | negation _ | bind _ _ _ | many _ _ => exact (each _).bind fun _ => .refl _
  | choice ps =>
    exact Sooner.bind (Sooner.mapM (fun p => each p.toValue) ps) fun _ => .refl _
  | foreign v => exact each v
  | _ => exact .refl _

theorem sooner_showWith (each : ∀ v, Sooner (inner v) (inner' v)) (v : Value) :
    Sooner (showWith inner results v) (showWith inner' results v) := by
  cases v with
  | list vs | tuple vs => exact (Sooner.mapM each vs).bind fun _ => .refl _
  | derivation v r => exact (each v).bind fun _ => (each r).bind fun _ => .refl _
  | result a =>
    refine Sooner.bind (Sooner.mapM (fun d => ?_) (results.read a)) fun _ => .refl _
    exact (each d.value).bind fun _ => (each d.remainder).bind fun _ => .refl _
  | parser p =>
    obtain ⟨shape, mapping, name⟩ := p
    cases name with
    | none => exact sooner_showShape each shape
    | some v => cases v <;> exact .refl _
  | function f => cases f <;> exact .refl _
  | _ => exact .refl _

end

theorem sooner_display (le : n ≤ m) (v : Value) :
    Sooner (display results n v) (display results m v) := by
  induction n generalizing m v with
  | zero =>
    cases m with
    | zero => exact .refl _
    | succ m => exact sooner_showWith (fun _ => .exhausted _) v
  | succ n ih =>
    obtain ⟨m, rfl⟩ : ∃ k, m = k + 1 := ⟨m - 1, by omega⟩
    exact sooner_showWith (fun v => ih (Nat.le_of_succ_le_succ le) v) v

theorem sooner_toText (le : n ≤ m) (v : Value) :
    Sooner (toText results n v) (toText results m v) := by
  cases v with
  | text _ | strategy _ => exact .refl _
  | _ => exact sooner_display le _

/-! ## Equality and order -/

section

variable {same same' before before' : Value → Value → Except Stop Bool}

theorem sooner_equalItems (each : ∀ a b, Sooner (same a b) (same' a b)) (as bs : List Value) :
    Sooner (equalItems same as bs) (equalItems same' as bs) := by
  induction as generalizing bs with
  | nil => cases bs <;> exact .refl _
  | cons a as ih =>
    cases bs with
    | nil => exact .refl _
    | cons b bs =>
      refine (each a b).bind fun equal => ?_
      cases equal with
      | true => exact ih bs
      | false => exact .refl _

theorem sooner_equalLists (each : ∀ a b, Sooner (same a b) (same' a b)) (as bs : List Value) :
    Sooner (equalLists same as bs) (equalLists same' as bs) := by
  unfold equalLists
  split
  · exact sooner_equalItems each as bs
  · exact .refl _

theorem sooner_equalRows (each : ∀ a b, Sooner (same a b) (same' a b)) (ds : List Derivation)
    (rows : List Value) :
    Sooner (equalRows same results ds rows) (equalRows same' results ds rows) :=
  (Sooner.refl _).bind fun _ => sooner_equalLists each _ _

theorem sooner_orSame (each : ∀ a b, Sooner (same a b) (same' a b)) (a b : Value) :
    Sooner (orSame results same a b) (orSame results same' a b) := by
  unfold orSame
  split
  · exact .refl _
  · exact each a b

theorem sooner_equalWith (each : ∀ a b, Sooner (same a b) (same' a b)) (a b : Value) :
    Sooner (equalWith same results a b) (equalWith same' results a b) := by
  unfold equalWith
  split
  -- What holds no other values is compared at once.
  iterate 9 exact .refl _
  · exact sooner_equalLists each _ _
  · split
    · exact .refl _
    · exact sooner_equalLists each _ _
  · split
    · exact sooner_equalRows each _ _
    · exact .refl _
  · split
    · exact sooner_equalRows each _ _
    · exact .refl _
  · split
    · exact sooner_equalItems each _ _
    · exact .refl _

theorem sooner_firstDifference (each : ∀ a b, Sooner (same a b) (same' a b))
    (as bs : List Value) : Sooner (firstDifference same as bs) (firstDifference same' as bs) := by
  induction as generalizing bs with
  | nil => cases bs <;> exact .refl _
  | cons a as ih =>
    cases bs with
    | nil => exact .refl _
    | cons b bs =>
      refine (each a b).bind fun equal => ?_
      cases equal with
      | true => exact ih bs
      | false => exact .refl _

theorem sooner_lessWith (each : ∀ a b, Sooner (same a b) (same' a b))
    (order : ∀ a b, Sooner (before a b) (before' a b)) (a b : Value) :
    Sooner (lessWith same before a b) (lessWith same' before' a b) := by
  have lexicographic (xs ys : List Value) : Sooner (lessWith same before (.list xs) (.list ys))
      (lessWith same' before' (.list xs) (.list ys)) := by
    change Sooner (firstDifference same xs ys >>= _) (firstDifference same' xs ys >>= _)
    refine (sooner_firstDifference each xs ys).bind fun found => ?_
    split
    · exact order _ _
    · exact .refl _
  unfold lessWith
  split
  · exact .refl _
  · exact .refl _
  · exact lexicographic _ _
  · split
    · exact lexicographic _ _
    · exact .refl _

end

theorem sooner_equal (le : n ≤ m) (a b : Value) :
    Sooner (equal results n a b) (equal results m a b) := by
  induction n generalizing m a b with
  | zero =>
    cases m with
    | zero => exact .refl _
    | succ m => exact sooner_equalWith (sooner_orSame fun _ _ => .exhausted _) a b
  | succ n ih =>
    obtain ⟨m, rfl⟩ : ∃ k, m = k + 1 := ⟨m - 1, by omega⟩
    exact sooner_equalWith (sooner_orSame fun a b => ih (Nat.le_of_succ_le_succ le) a b) a b

theorem sooner_less (le : n ≤ m) (a b : Value) :
    Sooner (less results n a b) (less results m a b) := by
  induction n generalizing m a b with
  | zero =>
    cases m with
    | zero => exact .refl _
    | succ m =>
      exact sooner_lessWith (sooner_orSame fun _ _ => .exhausted _) (fun _ _ => .exhausted _) a b
  | succ n ih =>
    obtain ⟨m, rfl⟩ : ∃ k, m = k + 1 := ⟨m - 1, by omega⟩
    have le' := Nat.le_of_succ_le_succ le
    exact sooner_lessWith (sooner_orSame (sooner_equal le')) (fun a b => ih le' a b) a b

theorem sooner_anyEqual (le : n ≤ m) (v : Value) (vs : List Value) :
    Sooner (anyEqual results n v vs) (anyEqual results m v vs) := by
  induction vs with
  | nil => exact .refl _
  | cons w ws ih =>
    refine (sooner_orSame (sooner_equal le) w v).bind fun equal => ?_
    cases equal with
    | true => exact .refl _
    | false => exact ih

theorem sooner_contains (le : n ≤ m) (v container : Value) :
    Sooner (contains results n v container) (contains results m v container) := by
  unfold contains
  split
  · exact .refl _
  · exact .refl _
  · exact (Sooner.refl _).bind fun vs => sooner_anyEqual le v vs

/-! ## Functions by name, and kinds -/

theorem sooner_selectBest {before before' : Value → Value → Except Stop Bool}
    (order : ∀ a b, Sooner (before a b) (before' a b)) (best : Value) (vs : List Value) :
    Sooner (selectBest before best vs) (selectBest before' best vs) := by
  induction vs generalizing best with
  | nil => exact .refl _
  | cons v vs ih =>
    refine (order v best).bind fun better => ?_
    cases better with
    | true => exact ih v
    | false => exact ih best

theorem sooner_select {before before' : Value → Value → Except Stop Bool}
    (order : ∀ a b, Sooner (before a b) (before' a b)) (vs : List Value) :
    Sooner (select before results vs) (select before' results vs) := by
  refine (Sooner.refl _).bind fun candidates => ?_
  cases candidates with
  | nil => exact .refl _
  | cons v vs => exact sooner_selectBest order v vs

theorem sooner_applyPrimitive (le : n ≤ m) (p : Primitive) (arguments : List Value) :
    Sooner (applyPrimitive results n p arguments) (applyPrimitive results m p arguments) := by
  unfold applyPrimitive
  split
  case h_8 => exact sooner_select (fun a b => sooner_less le b a) _
  case h_9 => exact sooner_select (fun a b => sooner_less le a b) _
  all_goals exact .refl _

theorem sooner_construct (le : n ≤ m) (k : Kind) (arguments : List Value) :
    Sooner (construct results n k arguments) (construct results m k arguments) := by
  unfold construct
  split
  case h_2 => exact (sooner_toText le _).bind fun _ => .refl _
  all_goals exact .refl _

/-! ## Chains of values -/

theorem sooner_chainValues (le : n ≤ m) (link : Value) :
    Sooner (Evaluator.chainValues results n link) (Evaluator.chainValues results m link) := by
  induction n generalizing m link with
  | zero =>
    cases link with
    | none => cases m <;> exact .refl _
    | _ => exact .exhausted _
  | succ n ih =>
    obtain ⟨m, rfl⟩ : ∃ k, m = k + 1 := ⟨m - 1, by omega⟩
    have deeper (link : Value) := ih (Nat.le_of_succ_le_succ le) link
    cases link with
    | none => exact .refl _
    | _ => exact (Sooner.refl _).bind fun _ => (Sooner.refl _).bind fun previous =>
        (deeper previous).bind fun _ => .refl _

/-! ## Snapshots -/

section

variable {inner inner' : Value → Except Stop Answer}
  {shown shown' : Value → Except Stop (List Char)}

theorem sooner_snapshotWith (each : ∀ v, Sooner (inner v) (inner' v))
    (texts : ∀ v, Sooner (shown v) (shown' v)) (store : Store) (v : Value) :
    Sooner (snapshotWith inner shown store v) (snapshotWith inner' shown' store v) := by
  cases v with
  | list vs | tuple vs => exact (Sooner.mapM each vs).bind fun _ => .refl _
  | derivation v r => exact (each v).bind fun _ => (each r).bind fun _ => .refl _
  | result a =>
    refine Sooner.bind (Sooner.mapM (fun d => ?_) (store.results.read a)) fun _ => .refl _
    exact (each d.value).bind fun _ => (each d.remainder).bind fun _ => .refl _
  | parser p => exact (texts _).bind fun _ => .refl _
  | function f => cases f <;> exact .refl _
  | _ => exact .refl _

end

theorem sooner_snapshot {store : Store} (le : n ≤ m) (v : Value) :
    Sooner (snapshot store n v) (snapshot store m v) := by
  induction n generalizing m v with
  | zero =>
    cases m with
    | zero => exact .refl _
    | succ m =>
      exact sooner_snapshotWith (fun _ => .exhausted _) (sooner_display (Nat.zero_le m)) store v
  | succ n ih =>
    obtain ⟨m, rfl⟩ : ∃ k, m = k + 1 := ⟨m - 1, by omega⟩
    have le' := Nat.le_of_succ_le_succ le
    exact sooner_snapshotWith (ih le') (sooner_display le') store v

/-- Only result lists and cells show in a snapshot. -/
theorem snapshot_congr {s t : Store} (same : t.results = s.results) (cells : t.cells = s.cells)
    (n : Nat) (v : Value) : snapshot t n v = snapshot s n v := by
  have once (inner : Value → Except Stop Answer) (shown : Value → Except Stop (List Char)) :
      snapshotWith inner shown t = snapshotWith inner shown s := by
    funext v
    cases v with
    | result a => simp only [snapshotWith, same]
    | cell a => simp only [snapshotWith, Store.cellAt, cells]
    | function f => cases f <;> rfl
    | _ => rfl
  induction n generalizing v with
  | zero => rw [snapshot, snapshot, once, same]
  | succ n ih => rw [snapshot, snapshot, once, same, funext ih]

end GrammarKit.Value
