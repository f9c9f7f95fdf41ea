import GrammarKit.Evaluation.Snapshot
import GrammarKit.Proofs.Parts

/-! # Values are looked at within bounds

What is made of values by looking at them depends on nothing but the result lists that they refer
to: where two families of result lists agree as far as the bounds allow to look, and these lists
hold nothing beyond the bounds, values within the bounds have the same items, are equal to the same
values and are shown by the same texts.
-/

namespace GrammarKit

/-- Whether result lists are the same as far as bounds allow to look, in the same runtime. -/
structure Results.Agree (b : Bounds) (results results' : Results) : Prop where
  runtime : results'.runtime = results.runtime
  read : ∀ address, b.result address → results'.read address = results.read address

theorem Results.Agree.unlimited {b : Bounds} {results results' : Results}
    (agree : results.Agree b results') : results.unlimited.Agree b results'.unlimited :=
  ⟨congrArg Runtime.unlimited agree.runtime, agree.read⟩

/-- Whether what is made of result lists depends on those within bounds alone, if these hold nothing
beyond the bounds. -/
def Results.Local {α : Type} (b : Bounds) (f : Results → α) : Prop :=
  ∀ results results', results.All (Value.Within b) → results.Agree b results' →
    f results' = f results

namespace Results.Local

variable {b : Bounds} {α β : Type}

theorem const (a : α) : Local b fun _ => a := fun _ _ _ _ => rfl

theorem map {f : Results → α} (looks : Local b f) (g : α → β) : Local b fun results =>
    g (f results) :=
  fun results results' store same => congrArg g (looks results results' store same)

/-- What a result list within bounds holds. -/
theorem read {address : Nat} (known : b.result address) :
    Local b fun results => results.read address :=
  fun _ _ _ same => same.read address known

/-- What the runtime decides. -/
theorem runtime : Local b fun results => results.runtime := fun _ _ _ same => same.runtime

/-- A computation with what another one has found, which may be known to be within bounds. -/
theorem bind {ε : Type} {f : Results → Except ε α} {g : Results → α → Except ε β} {P : α → Prop}
    (first : Local b f) (found : ∀ results, results.All (Value.Within b) →
      ∀ a, f results = .ok a → P a)
    (second : ∀ a, P a → Local b fun results => g results a) :
    Local b fun results => f results >>= g results := by
  intro results results' store same
  dsimp only
  rw [first results results' store same]
  cases here : f results with
  | ok a => exact second a (found results store a here) results results' store same
  | error e => rfl

theorem mapM {ε : Type} {f : Results → α → Except ε β} {as : List α}
    (each : ∀ a ∈ as, Local b fun results => f results a) :
    Local b fun results => as.mapM (f results) :=
  fun results results' store same =>
    Except.mapM_congr fun a member => each a member results results' store same

end Results.Local

open Results (Local)

namespace Value

variable {b : Bounds} {v w : Value}

/-! ## Items -/

theorem local_items (within : v.Within b) : Local b fun results => v.items results := by
  cases v with
  | result address =>
    exact (Local.read within).map fun ds => Except.ok (ds.map Derivation.toValue)
  | _ => exact .const _

theorem local_length (within : v.Within b) : Local b fun results => v.length results := by
  cases v with
  | result address => exact (Local.read within).map fun ds => Except.ok ds.length
  | _ => exact .const _

theorem local_uncons? (within : v.Within b) : Local b fun results => v.uncons? results := by
  cases v with
  | result address =>
    intro results results' _ same
    simp only [uncons?, same.read address within]
  | text cs => cases cs <;> exact .const _
  | bytes bs => cases bs <;> exact .const _
  | list vs => cases vs <;> exact .const _
  | tuple vs => cases vs <;> exact .const _
  | _ => exact .const _

theorem local_slice (within : v.Within b) (first last step : Value) :
    Local b fun results => v.slice results first last step := by
  cases v with
  | result address =>
    intro results results' _ same
    simp only [slice, same.read address within]
  | _ => exact .const _

theorem local_truth (within : v.Within b) : Local b fun results => v.truth results := by
  cases v with
  | result address => exact (Local.read within).map fun ds => !ds.isEmpty
  | _ => exact .const _

theorem local_index (within : v.Within b) (key : Value) :
    Local b fun results => v.index results key := by
  intro results results' store same
  simp only [index, local_items within results results' store same]

theorem local_unpair (within : v.Within b) : Local b fun results => v.unpair results := by
  intro results results' store same
  simp only [unpair, local_items within results results' store same]

theorem local_toDerivation (within : v.Within b) :
    Local b fun results => v.toDerivation results := by
  intro results results' store same
  simp only [toDerivation, local_items within results results' store same]

theorem local_toDerivations {vs : List Value} (all : ∀ v ∈ vs, v.Within b) :
    Local b fun results => vs.mapM (toDerivation results) :=
  .mapM fun v member => local_toDerivation (all v member)

/-! ## Equality and order -/

/-- Lists of the items of collections are within bounds. -/
theorem tuples_within {rows tuples : List Value} {results : Results}
    (store : results.All (Value.Within b)) (all : ∀ row ∈ rows, row.Within b)
    (read : rows.mapM (fun row => (Value.tuple <$> liftM (items results row) : Except Stop Value)) =
      .ok tuples) : ∀ v ∈ tuples, v.Within b := by
  induction rows generalizing tuples with
  | nil =>
    cases read
    exact List.forall_mem_nil _
  | cons row rows ih =>
    obtain ⟨here, others⟩ := List.forall_mem_cons.mp all
    rw [List.mapM_cons] at read
    obtain ⟨v, first, read⟩ := Except.bind_eq_ok_iff.mp read
    obtain ⟨vs, further, read⟩ := Except.bind_eq_ok_iff.mp read
    obtain ⟨contents, found, rfl⟩ := Except.map_eq_ok_iff.mp first
    cases read
    have contained := hereditary_within.items store here (Except.lift_eq_ok_iff.mp found)
    exact List.forall_mem_cons.mpr ⟨(hereditary_within.tuple _).mpr contained, ih others further⟩

section

variable {same : Results → Value → Value → Except Stop Bool}
  (alike : ∀ v w : Value, v.Within b → w.Within b → Local b fun results => same results v w)

include alike

theorem local_equalItems {vs ws : List Value} (all : ∀ v ∈ vs, v.Within b)
    (all' : ∀ w ∈ ws, w.Within b) : Local b fun results => equalItems (same results) vs ws := by
  induction vs generalizing ws with
  | nil => cases ws <;> exact .const _
  | cons v vs ih =>
    cases ws with
    | nil => exact .const _
    | cons w ws =>
      obtain ⟨first, others⟩ := List.forall_mem_cons.mp all
      obtain ⟨first', others'⟩ := List.forall_mem_cons.mp all'
      refine .bind (P := fun _ => True) (alike v w first first') (fun _ _ _ _ => trivial) ?_
      intro h _
      cases h with
      | true => exact ih others others'
      | false => exact .const _

theorem local_equalLists {vs ws : List Value} (all : ∀ v ∈ vs, v.Within b)
    (all' : ∀ w ∈ ws, w.Within b) : Local b fun results => equalLists (same results) vs ws := by
  unfold equalLists
  split
  · exact local_equalItems alike all all'
  · exact .const _

theorem local_equalRows {address : Nat} (known : b.result address) {rows : List Value}
    (all : ∀ row ∈ rows, row.Within b) :
    Local b fun results => equalRows (same results) results (results.read address) rows := by
  refine .bind (P := fun tuples => ∀ v ∈ tuples, v.Within b) (.mapM fun row member => ?_)
    (fun _ store _ => tuples_within store all) fun tuples within => ?_
  · exact (local_items (all row member)).map fun items =>
      (Value.tuple <$> liftM items : Except Stop Value)
  · intro results results' store agree
    have here : ∀ v ∈ (results.read address).map Derivation.toValue, v.Within b :=
      List.forall_mem_map.mpr (store address known)
    dsimp only
    rw [agree.read address known]
    exact local_equalLists alike here within results results' store agree

/-- Whether values within bounds are equal has nothing to do with what is beyond. -/
theorem local_equalWith (left : v.Within b) (right : w.Within b) :
    Local b fun results => equalWith (same results) results v w := by
  have pair {u r : Value} (within : (Value.derivation u r).Within b) : ∀ v ∈ [u, r], v.Within b :=
    List.forall_mem_cons.mpr ⟨within.1, List.forall_mem_singleton.mpr within.2⟩
  have each {vs : List Value} (within : AllWithin b vs) : ∀ v ∈ vs, v.Within b :=
    (allWithin_iff vs).mp within
  cases v with
  | result address =>
    cases w with
    | result other =>
      intro results results' store agree
      have here {address : Nat} (known : b.result address) :
          ∀ v ∈ (results.read address).map Derivation.toValue, v.Within b :=
        List.forall_mem_map.mpr (store address known)
      simp only [equalWith, agree.read address left, agree.read other right]
      split
      · rfl
      · exact local_equalLists alike (here left) (here right) results results' store agree
    | list ws | tuple ws => exact local_equalRows alike left (each right)
    | derivation u r => exact local_equalRows alike left (pair right)
    | _ => exact .const _
  | list vs =>
    cases w with
    | list ws => exact local_equalLists alike (each left) (each right)
    | result other => exact local_equalRows alike right (each left)
    | _ => exact .const _
  | tuple vs =>
    cases w with
    | tuple ws => exact local_equalItems alike (each left) (each right)
    | derivation u r => exact local_equalItems alike (each left) (pair right)
    | result other => exact local_equalRows alike right (each left)
    | _ => exact .const _
  | derivation v v' =>
    cases w with
    | tuple ws => exact local_equalItems alike (pair left) (each right)
    | derivation u r => exact local_equalItems alike (pair left) (pair right)
    | result other => exact local_equalRows alike right (pair left)
    | _ => exact .const _
  | function f =>
    cases w with
    | function g => exact Local.runtime.map fun runtime => Except.ok (sameFunction runtime f g)
    | _ => exact .const _
  | parser p =>
    cases w with
    | parser q =>
      exact Local.runtime.map fun runtime => Except.ok (runtime.same (.parser p) (.parser q))
    | _ => exact .const _
  | _ => cases w <;> exact .const _

/-- Whether two items are one object or equal is a matter of what they hold, too. -/
theorem local_orSame (left : v.Within b) (right : w.Within b) :
    Local b fun results => orSame results (same results) v w := by
  intro results results' store agree
  simp only [orSame, agree.runtime, alike v w left right results results' store agree]

theorem local_firstDifference {vs ws : List Value} (all : ∀ v ∈ vs, v.Within b)
    (all' : ∀ w ∈ ws, w.Within b) :
    Local b fun results => firstDifference (same results) vs ws := by
  induction vs generalizing ws with
  | nil => cases ws <;> exact .const _
  | cons v vs ih =>
    cases ws with
    | nil => exact .const _
    | cons w ws =>
      obtain ⟨first, others⟩ := List.forall_mem_cons.mp all
      obtain ⟨first', others'⟩ := List.forall_mem_cons.mp all'
      refine .bind (P := fun _ => True) (alike v w first first') (fun _ _ _ _ => trivial) ?_
      intro h _
      cases h with
      | true => exact ih others others'
      | false => exact .const _

end

theorem local_equal (n : Nat) (left : v.Within b) (right : w.Within b) :
    Local b fun results => equal results n v w := by
  induction n generalizing v w with
  | zero =>
    exact local_equalWith (fun _ _ => local_orSame fun _ _ _ _ => .const _) left right
  | succ n ih =>
    exact local_equalWith (fun _ _ => local_orSame fun _ _ left right => ih left right) left right

theorem local_anyEqual (n : Nat) {members : List Value} (within : v.Within b)
    (all : ∀ w ∈ members, w.Within b) : Local b fun results => anyEqual results n v members := by
  induction members with
  | nil => exact .const _
  | cons w members ih =>
    obtain ⟨first, others⟩ := List.forall_mem_cons.mp all
    refine .bind (P := fun _ => True) (local_orSame (fun _ _ => local_equal n) first within)
      (fun _ _ _ _ => trivial) ?_
    intro h _
    cases h with
    | true => exact .const _
    | false => exact ih others

theorem local_contains (n : Nat) (within : v.Within b) (container : w.Within b) :
    Local b fun results => contains results n v w := by
  have entries : Local b fun results => (do
      let vs ← items results w
      anyEqual results n v vs : Except Stop Bool) := by
    refine .bind (P := fun vs => ∀ u ∈ vs, u.Within b)
      ((local_items container).map fun items => (liftM items : Except Stop (List Value)))
      (fun _ store vs found => ?_) fun vs all => local_anyEqual n within all
    exact hereditary_within.items store container (Except.lift_eq_ok_iff.mp found)
  cases w with
  | text _ | bytes _ => cases v <;> exact .const _
  | _ => exact entries

/-- What two lists differ in first is an item of each. -/
theorem mem_of_firstDifference {same : Value → Value → Except Stop Bool} {vs ws : List Value}
    {x y : Value} {shorter : Bool}
    (found : firstDifference same vs ws = .ok (some (x, y), shorter)) : x ∈ vs ∧ y ∈ ws := by
  induction vs generalizing ws with
  | nil => cases ws <;> cases found
  | cons v vs ih =>
    cases ws with
    | nil => cases found
    | cons w ws =>
      obtain ⟨h, -, found⟩ := Except.bind_eq_ok_iff.mp found
      cases h with
      | true =>
        obtain ⟨left, right⟩ := ih found
        exact ⟨List.mem_cons_of_mem _ left, List.mem_cons_of_mem _ right⟩
      | false =>
        cases found
        exact ⟨List.mem_cons_self, List.mem_cons_self⟩

theorem local_lessWith {same before : Results → Value → Value → Except Stop Bool}
    (alike : ∀ v w : Value, v.Within b → w.Within b → Local b fun results => same results v w)
    (alike' : ∀ v w : Value, v.Within b → w.Within b → Local b fun results => before results v w)
    (left : v.Within b) (right : w.Within b) :
    Local b fun results => lessWith (same results) (before results) v w := by
  have lexicographic {vs ws : List Value} (all : ∀ v ∈ vs, v.Within b)
      (all' : ∀ w ∈ ws, w.Within b) :
      Local b fun results => lessWith (same results) (before results) (.list vs) (.list ws) := by
    refine .bind (P := fun found => ∀ x y, found.1 = some (x, y) → x.Within b ∧ y.Within b)
      (local_firstDifference alike all all') ?_ ?_
    · rintro results - ⟨_, shorter⟩ found x y rfl
      obtain ⟨here, there⟩ := mem_of_firstDifference found
      exact ⟨all x here, all' y there⟩
    · rintro ⟨_ | ⟨x, y⟩, shorter⟩ within
      · exact .const _
      · exact alike' x y (within x y rfl).1 (within x y rfl).2
  have pair {u r : Value} (within : (Value.derivation u r).Within b) : ∀ v ∈ [u, r], v.Within b :=
    List.forall_mem_cons.mpr ⟨within.1, List.forall_mem_singleton.mpr within.2⟩
  have each {vs : List Value} (within : AllWithin b vs) : ∀ v ∈ vs, v.Within b :=
    (allWithin_iff vs).mp within
  cases v with
  | list vs =>
    cases w with
    | list ws => exact lexicographic (each left) (each right)
    | _ => exact .const _
  | tuple vs =>
    cases w with
    | tuple ws => exact lexicographic (each left) (each right)
    | derivation u r => exact lexicographic (each left) (pair right)
    | _ => exact .const _
  | derivation v v' =>
    cases w with
    | tuple ws => exact lexicographic (pair left) (each right)
    | derivation u r => exact lexicographic (pair left) (pair right)
    | _ => exact .const _
  | _ => cases w <;> exact .const _

theorem local_less (n : Nat) (left : v.Within b) (right : w.Within b) :
    Local b fun results => less results n v w := by
  induction n generalizing v w with
  | zero =>
    exact local_lessWith (fun _ _ => local_orSame fun _ _ _ _ => .const _)
      (fun _ _ _ _ => .const _) left right
  | succ n ih =>
    exact local_lessWith (fun _ _ => local_orSame fun _ _ => local_equal n)
      (fun _ _ left right => ih left right) left right

/-! ## Texts -/

theorem local_display (n : Nat) (within : v.Within b) :
    Local b fun results => v.display results n :=
  fun _ _ store same => display_congr same.runtime same.read store n within

/-- The same of how it is shown in messages. -/
theorem local_describe (n : Nat) (within : v.Within b) :
    Local b fun results => v.display results.unlimited n :=
  fun _ _ store same => display_congr same.unlimited.runtime same.unlimited.read store n within

theorem local_toText (n : Nat) (within : v.Within b) :
    Local b fun results => v.toText results n := by
  cases v with
  | text _ | strategy _ => exact .const _
  | _ => exact local_display n within

/-! ## Snapshots -/

section

variable {s t : Store} (store : s.results.All (Within b)) (agree : s.results.Agree b t.results)
  (cells : t.cells = s.cells)

include store agree cells

theorem snapshotWith_of_agree {inner inner' : Value → Except Stop Answer}
    {shown shown' : Value → Except Stop (List Char)}
    (alike : ∀ u : Value, u.Within b → inner' u = inner u)
    (texts : ∀ u : Value, u.Within b → shown' u = shown u) (within : v.Within b) :
    snapshotWith inner' shown' t v = snapshotWith inner shown s v := by
  have each {vs : List Value} (all : AllWithin b vs) : vs.mapM inner' = vs.mapM inner :=
    Except.mapM_congr fun u member => alike u ((allWithin_iff vs).mp all u member)
  cases v with
  | list vs | tuple vs => simp only [snapshotWith, each within]
  | derivation u r => simp only [snapshotWith, alike u within.1, alike r within.2]
  | result address =>
    simp only [snapshotWith, agree.read address within]
    refine congrArg (· >>= _) (Except.mapM_congr fun d member => ?_)
    have here := store address within d member
    rw [alike d.value here.1, alike d.remainder here.2]
  | cell address => simp only [snapshotWith, Store.cellAt, cells]
  | parser p => simp only [snapshotWith, texts (.parser p) within]
  | function f => cases f <;> rfl
  | _ => rfl

/-- What is reported of a value depends on nothing but the cells and the result lists that it
refers to. -/
theorem snapshot_of_agree (n : Nat) (within : v.Within b) :
    v.snapshot t n = v.snapshot s n := by
  have texts (n : Nat) (u : Value) (within : u.Within b) :
      u.display t.results.unlimited n = u.display s.results.unlimited n :=
    local_describe n within s.results t.results store agree
  induction n generalizing v with
  | zero => exact snapshotWith_of_agree store agree cells (fun _ _ => rfl) (texts 0) within
  | succ n ih =>
    exact snapshotWith_of_agree store agree cells (fun _ within => ih within) (texts n) within

end

/-! ## Functions -/

theorem local_selectBest {before : Results → Value → Value → Except Stop Bool}
    (alike : ∀ v w : Value, v.Within b → w.Within b → Local b fun results => before results v w)
    {vs : List Value} (all : ∀ v ∈ vs, v.Within b) (best : w.Within b) :
    Local b fun results => selectBest (before results) w vs := by
  induction vs generalizing w with
  | nil => exact .const _
  | cons v vs ih =>
    obtain ⟨first, others⟩ := List.forall_mem_cons.mp all
    refine .bind (P := fun _ => True) (alike v w first best) (fun _ _ _ _ => trivial) ?_
    intro h _
    cases h with
    | true => exact ih others first
    | false => exact ih others best

theorem local_candidates {vs : List Value} (all : ∀ v ∈ vs, v.Within b) :
    Local b fun results => select.candidates results vs := by
  match vs with
  | [] => exact .const _
  | [v] => exact local_items (all v List.mem_cons_self)
  | _ :: _ :: _ => exact .const _

theorem local_select {before : Results → Value → Value → Except Stop Bool} {vs : List Value}
    (alike : ∀ v w : Value, v.Within b → w.Within b → Local b fun results => before results v w)
    (all : ∀ v ∈ vs, v.Within b) :
    Local b fun results => select (before results) results vs := by
  refine .bind (P := fun found => ∀ v ∈ found, v.Within b)
    ((local_candidates all).map fun found => (liftM found : Except Stop (List Value)))
    (fun _ store _ found => ?_) fun found within => ?_
  · exact hereditary_within.candidates store all (Except.lift_eq_ok_iff.mp found)
  · cases found with
    | nil => exact .const _
    | cons v vs =>
      obtain ⟨first, others⟩ := List.forall_mem_cons.mp within
      exact local_selectBest alike others first

theorem local_applyPrimitive (n : Nat) (p : Primitive) {arguments : List Value}
    (all : ∀ v ∈ arguments, v.Within b) :
    Local b fun results => applyPrimitive results n p arguments := by
  unfold applyPrimitive
  split
  · exact .const _
  · exact .const _
  · exact .const _
  · exact .const _
  · exact .const _
  · exact (local_length (all _ List.mem_cons_self)).map fun length =>
      (do return Value.int (← length) : Except Stop Value)
  · exact .const _
  · exact local_select (fun _ _ left right => local_less n right left) all
  · exact local_select (fun _ _ left right => local_less n left right) all
  · exact .const _

theorem local_construct (n : Nat) (k : Kind) {arguments : List Value}
    (all : ∀ v ∈ arguments, v.Within b) :
    Local b fun results => construct results n k arguments := by
  have first {v : Value} (only : arguments = [v]) : v.Within b := all v (only ▸ List.mem_cons_self)
  unfold construct
  split
  · exact .const _
  · exact (local_toText n (first rfl)).map fun text => (Value.text <$> text)
  · exact .const _
  · exact .const _
  · exact .const _
  · exact (local_items (first rfl)).map fun items =>
      (do return Value.list (← items) : Except Stop Value)
  · exact .const _
  · exact (local_items (first rfl)).map fun items =>
      (do return Value.tuple (← items) : Except Stop Value)
  · exact .const _
  · exact Local.runtime.map fun runtime => (liftM (toInteger runtime _) : Except Stop Value)
  · exact Local.runtime.map fun runtime => (liftM (toIntegerIn runtime _ _) : Except Stop Value)
  · exact .const _

end Value

/-! ## Sequences to be matched -/

namespace Parser

variable {b : Bounds} {expected : Value}

theorem local_spell (p : Parser) (within : expected.Within b) (allowShort : Value) :
    Local b fun results => p.spell results expected allowShort := by
  intro results results' store same
  simp only [spell, Value.local_uncons? within results results' store same]

theorem local_startsWith (p : Parser) (within : expected.Within b) (allowShort : Value) :
    Local b fun results => p.startsWith results expected allowShort := by
  intro results results' store same
  simp only [startsWith, Value.local_length within results results' store same,
    local_spell p within allowShort results results' store same]

end Parser

namespace Evaluator

variable {b : Bounds} {v : Value}

theorem local_splitAt (within : v.Within b) (sizes : List Value) :
    Local b fun results => splitAt results v sizes := by
  intro results results' store same
  induction sizes with
  | nil => rfl
  | cons n sizes ih =>
    dsimp only at ih
    simp only [splitAt, Value.local_length within results results' store same,
      Value.local_slice within _ _ _ results results' store same, ih]

theorem local_chainValues (n : Nat) (within : v.Within b) :
    Local b fun results => chainValues results n v := by
  induction n generalizing v with
  | zero => cases v <;> exact .const _
  | succ n ih =>
    have at' (i : Int) : Local b fun results =>
        (liftM (v.index results (.int i)) : Except Stop Value) :=
      (Value.local_index within _).map fun item => liftM item
    have step : Local b fun results => (do
        let value ← v.index results (.int 0)
        let previous ← v.index results (.int 1)
        return value :: (← chainValues results n previous) : Except Stop (List Value)) := by
      refine .bind (P := fun _ => True) (at' 0) (fun _ _ _ _ => trivial) fun value _ => ?_
      refine .bind (P := fun u => u.Within b) (at' 1) (fun _ store _ found => ?_) fun u inside => ?_
      · exact Value.hereditary_within.index store within (Except.lift_eq_ok_iff.mp found)
      · exact (ih inside).map fun others => (do return value :: (← others))
    cases v with
    | none => exact .const _
    | _ => exact step

theorem local_completeOnes {ds : List Derivation} (all : ∀ d ∈ ds, d.Within b) :
    Local b fun results => completeOnes results ds := by
  intro results results' store same
  induction ds with
  | nil => rfl
  | cons d ds ih =>
    obtain ⟨here, others⟩ := List.forall_mem_cons.mp all
    simp only [completeOnes, Value.local_length here.2 results results' store same, ih others]

end Evaluator

namespace Path

variable {b : Bounds}

theorem local_start {input : Value} (within : input.Within b) :
    Local b fun results => Path.start results input := by
  intro results results' store same
  simp only [start, Value.local_length within results results' store same]

theorem local_extendAll {path : Path} (within : path.remainder.Within b) {ds : List Derivation}
    (all : ∀ d ∈ ds, d.Within b) : Local b fun results => path.extendAll results ds := by
  refine .mapM fun d member => ?_
  intro results results' store same
  simp only [extend, Value.local_length (all d member).2 results results' store same,
    Value.local_length within results results' store same]

end Path

end GrammarKit
