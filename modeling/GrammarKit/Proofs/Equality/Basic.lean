import GrammarKit.Proofs.Depth
import GrammarKit.Proofs.Deep
import GrammarKit.Proofs.Equality.Numbers
import Mathlib.Data.List.Forall2

/-! # Equality of values

The comparison of two values comes down to the comparisons of what they hold, and one step of it
says which these are. `Results.EqualBy` tells when a step comes to the answer that two values are
equal, and `Results.Equals` is what all steps together come to. Of what two values hold, it is
enough if it matches: if it is equal or a single object. So values are equal iff one step says so
about them by what matches in them. A result list in place of a list or tuple is compared row by
row, with the items of each element, and the derivation stands first in either order of the two, so
equality is symmetric. -/

namespace GrammarKit

/-- Computations that all have a value have the list of them. -/
theorem Except.mapM_eq_ok_iff {ε α β : Type} {f : α → Except ε β} {as : List α} {bs : List β} :
    as.mapM f = .ok bs ↔ List.Forall₂ (fun a b => f a = .ok b) as bs := by
  induction as generalizing bs with
  | nil => cases bs <;> simp [pure, Except.pure]
  | cons a as ih =>
    rw [List.mapM_cons, Except.bind_eq_ok_iff]
    constructor
    · rintro ⟨b, first, values⟩
      obtain ⟨others, rest, whole⟩ := Except.bind_eq_ok_iff.mp values
      cases whole
      exact .cons first (ih.mp rest)
    · intro values
      cases values with
      | cons first rest =>
        exact ⟨_, first, Except.bind_eq_ok_iff.mpr ⟨_, ih.mpr rest, rfl⟩⟩

/-- Computations that each have a value of some kind have a list of such values. -/
theorem Except.exists_mapM_eq_ok {ε α β : Type} {f : α → Except ε β} {P : β → Prop} {as : List α}
    (each : ∀ a ∈ as, ∃ b, f a = .ok b ∧ P b) : ∃ bs, as.mapM f = .ok bs ∧ ∀ b ∈ bs, P b := by
  induction as with
  | nil => exact ⟨[], rfl, List.forall_mem_nil _⟩
  | cons a as ih =>
    obtain ⟨⟨b, first, holds⟩, others⟩ := List.forall_mem_cons.mp each
    obtain ⟨bs, rest, all⟩ := ih others
    refine ⟨b :: bs, ?_, List.forall_mem_cons.mpr ⟨holds, all⟩⟩
    rw [List.mapM_cons, first, rest]
    rfl

/-! ## One step -/

namespace Value

/-- Whether a value equals itself, whatever it holds. -/
def IsToken : Value → Prop
  | .missing | .none | .text _ | .bytes _ | .strategy _ | .kind _ | .cell _ | .result _
  | .function (.primitive _) => True
  | _ => False

/-- Whether a value equals another one only if they are one object. -/
def IsObject : Value → Prop
  | .function _ | .parser _ => True
  | _ => False

/-- A tuple or derivation is a list or tuple of its items. -/
theorem listed_of_tuple? {v : Value} {vs : List Value} (items : v.tuple? = some vs) :
    v.listOrTuple? = some vs := by
  cases v with
  | tuple _ | derivation _ _ => exact items
  | _ => cases items

theorem not_isToken_of_listed {v : Value} {vs : List Value} (listed : v.listOrTuple? = some vs) :
    ¬v.IsToken := by
  cases v with
  | list _ | tuple _ | derivation _ _ => exact id
  | _ => cases listed

theorem not_isObject_of_listed {v : Value} {vs : List Value} (listed : v.listOrTuple? = some vs) :
    ¬v.IsObject := by
  cases v with
  | list _ | tuple _ | derivation _ _ => exact id
  | _ => cases listed

theorem number?_of_listed {v : Value} {vs : List Value} (listed : v.listOrTuple? = some vs) :
    v.number? = Option.none := by
  cases v with
  | list _ | tuple _ | derivation _ _ => rfl
  | _ => cases listed

end Value

namespace Results

/-- Whether an element of a list has the items that a derivation has. -/
def IsRow (results : Results) (R : Value → Value → Prop) (d : Derivation) (e : Value) : Prop :=
  ∃ vs, e.items results = .ok vs ∧ R d.toValue (.tuple vs)

/-- Whether two values are equal if the values that they hold are equal by `R`. -/
inductive EqualBy (results : Results) (R : Value → Value → Prop) : Value → Value → Prop where
  | token {v : Value} (token : v.IsToken) : EqualBy results R v v
  | object {v : Value} (object : v.IsObject) (single : results.runtime.single v = true) :
      EqualBy results R v v
  | number {v w : Value} {m n : Number} (first : v.number? = some m) (second : w.number? = some n)
      (same : m.equal n = true) : EqualBy results R v w
  | list {vs ws : List Value} (items : List.Forall₂ R vs ws) :
      EqualBy results R (.list vs) (.list ws)
  | tuple {v w : Value} {vs ws : List Value} (first : v.tuple? = some vs)
      (second : w.tuple? = some ws) (items : List.Forall₂ R vs ws) : EqualBy results R v w
  | result {a b : Nat}
      (rows : List.Forall₂ (fun d e => R d.toValue e.toValue) (results.read a) (results.read b)) :
      EqualBy results R (.result a) (.result b)
  | left {a : Nat} {w : Value} {es : List Value} (listed : w.listOrTuple? = some es)
      (rows : List.Forall₂ (results.IsRow R) (results.read a) es) :
      EqualBy results R (.result a) w
  | right {a : Nat} {v : Value} {es : List Value} (listed : v.listOrTuple? = some es)
      (rows : List.Forall₂ (results.IsRow R) (results.read a) es) :
      EqualBy results R v (.result a)

variable {results : Results} {R S : Value → Value → Prop} {v w : Value}

theorem EqualBy.mono (weaker : ∀ v w, R v w → S v w) (equal : results.EqualBy R v w) :
    results.EqualBy S v w := by
  have row {d e} : results.IsRow R d e → results.IsRow S d e :=
    fun ⟨vs, items, same⟩ => ⟨vs, items, weaker _ _ same⟩
  cases equal with
  | token token => exact .token token
  | object object single => exact .object object single
  | number first second same => exact .number first second same
  | list items => exact .list (items.imp weaker)
  | tuple first second items => exact .tuple first second (items.imp weaker)
  | result rows => exact .result (rows.imp fun _ _ => weaker _ _)
  | left listed rows => exact .left listed (rows.imp fun _ _ => row)
  | right listed rows => exact .right listed (rows.imp fun _ _ => row)

theorem EqualBy.symm (swap : ∀ v w, R v w → R w v) (equal : results.EqualBy R v w) :
    results.EqualBy R w v := by
  have flipped {vs ws} (items : List.Forall₂ R vs ws) : List.Forall₂ R ws vs :=
    (items.imp fun _ _ => swap _ _).flip
  cases equal with
  | token token => exact .token token
  | object object single => exact .object object single
  | number first second same => exact .number second first (Number.equal_comm _ _ ▸ same)
  | list items => exact .list (flipped items)
  | tuple first second items => exact .tuple second first (flipped items)
  | result rows => exact .result (rows.imp fun _ _ => swap _ _).flip
  | left listed rows => exact .right listed rows
  | right listed rows => exact .left listed rows

end Results

namespace Value

variable {inner : Value → Value → Except Stop Bool} {results : Results} {v w : Value}
  {vs ws es : List Value} {a : Nat}

theorem equalItems_eq_ok_true_iff :
    equalItems inner vs ws = .ok true ↔ List.Forall₂ (fun v w => inner v w = .ok true) vs ws := by
  induction vs generalizing ws with
  | nil => cases ws <;> simp [equalItems, pure, Except.pure]
  | cons v vs ih =>
    cases ws with
    | nil => simp [equalItems, pure, Except.pure]
    | cons w ws =>
      rw [equalItems, Except.bind_eq_ok_iff, List.forall₂_cons, ← ih]
      constructor
      · rintro ⟨h, first, others⟩
        cases h with
        | true => exact ⟨first, others⟩
        | false => cases others
      · rintro ⟨first, others⟩
        exact ⟨true, first, others⟩

theorem equalLists_eq_ok_true_iff :
    equalLists inner vs ws = .ok true ↔ List.Forall₂ (fun v w => inner v w = .ok true) vs ws := by
  rw [← equalItems_eq_ok_true_iff, equalLists]
  split
  · rfl
  · next count =>
    refine iff_of_false nofun fun items => count ?_
    exact (equalItems_eq_ok_true_iff.mp items).length_eq

/-- The row for an element of a list: its items, as a tuple. -/
def row (results : Results) (e : Value) : Except Stop Value :=
  tuple <$> (liftM (e.items results) : Except Stop (List Value))

theorem row_eq_ok_iff {e u : Value} :
    e.row results = .ok u ↔ ∃ vs, e.items results = .ok vs ∧ u = .tuple vs := by
  rw [row, Except.map_eq_ok_iff]
  simp only [Except.lift_eq_ok_iff, eq_comm (a := u)]

theorem equalRows_eq (ds : List Derivation) : equalRows inner results ds es =
    es.mapM (row results) >>= fun rows => equalLists inner (ds.map Derivation.toValue) rows := rfl

theorem equalRows_eq_ok_true_iff {ds : List Derivation} : equalRows inner results ds es = .ok true ↔
    List.Forall₂ (results.IsRow fun v w => inner v w = .ok true) ds es := by
  simp only [equalRows_eq, Except.bind_eq_ok_iff, Except.mapM_eq_ok_iff, equalLists_eq_ok_true_iff,
    List.forall₂_map_left_iff]
  constructor
  · rintro ⟨rows, made, items⟩
    induction made generalizing ds with
    | nil =>
      cases items
      exact .nil
    | cons first _ ih =>
      cases items with
      | cons here others =>
        obtain ⟨vs, contents, rfl⟩ := row_eq_ok_iff.mp first
        exact .cons ⟨vs, contents, here⟩ (ih others)
  · intro all
    induction all with
    | nil => exact ⟨[], .nil, .nil⟩
    | cons first _ ih =>
      obtain ⟨vs, contents, here⟩ := first
      obtain ⟨rows, made, others⟩ := ih
      exact ⟨.tuple vs :: rows, .cons (row_eq_ok_iff.mpr ⟨vs, contents, rfl⟩) made,
        .cons here others⟩

/-! ## The step of the comparison -/

theorem equalWith_tuple (first : v.tuple? = some vs) (second : w.tuple? = some ws) :
    equalWith inner results v w = equalItems inner vs ws := by
  cases v with
  | tuple _ | derivation _ _ =>
    cases first
    cases w with
    | tuple _ | derivation _ _ =>
      cases second
      rfl
    | _ => cases second
  | _ => cases first

theorem equalWith_left (listed : w.listOrTuple? = some es) :
    equalWith inner results (.result a) w = equalRows inner results (results.read a) es := by
  cases w with
  | list _ | tuple _ | derivation _ _ =>
    cases listed
    rfl
  | _ => cases listed

theorem equalWith_right (listed : v.listOrTuple? = some es) :
    equalWith inner results v (.result a) = equalRows inner results (results.read a) es := by
  cases v with
  | list _ | tuple _ | derivation _ _ =>
    cases listed
    rfl
  | _ => cases listed

theorem equalWith_number {m n : Number} (first : v.number? = some m) (second : w.number? = some n) :
    equalWith inner results v w = .ok (m.equal n) := by
  cases v with
  | bool _ | int _ | float _ =>
    cases first
    cases w with
    | bool _ | int _ | float _ =>
      cases second
      rfl
    | _ => cases second
  | _ => cases first

theorem equalWith_token (token : v.IsToken) : equalWith inner results v v = .ok true := by
  have same {α : Type} [BEq α] [LawfulBEq α] (x : α) :
      (pure (x == x) : Except Stop Bool) = .ok true := by simp [pure, Except.pure]
  cases v with
  | missing | none => rfl
  | text _ | bytes _ | strategy _ | kind _ | cell _ => exact same _
  | result a => exact if_pos rfl
  | function f =>
    cases f with
    | primitive p => exact same p
    | _ => exact token.elim
  | _ => exact token.elim

/-- Functions are the same if they go by one name or are a single object. -/
theorem sameFunction_iff {runtime : Runtime} {f g : Callback} : sameFunction runtime f g = true ↔
    f = g ∧ ((Value.function f).IsToken ∨ runtime.single (.function f) = true) := by
  have single : runtime.same (.function f) (.function g) = true ↔
      f = g ∧ runtime.single (.function f) = true := by
    rw [Runtime.same_iff, Value.function.injEq, and_comm]
  cases f with
  | primitive p =>
    cases g with
    | primitive q => simp [sameFunction, IsToken]
    | _ => exact single.trans (iff_of_false nofun nofun)
  | _ => simpa [sameFunction, IsToken] using single

theorem equalWith_object (object : v.IsObject) (single : results.runtime.single v = true) :
    equalWith inner results v v = .ok true := by
  cases v with
  | function f => exact congrArg Except.ok (sameFunction_iff.mpr ⟨rfl, .inr single⟩)
  | parser p => exact congrArg Except.ok (results.runtime.same_iff.mpr ⟨single, rfl⟩)
  | _ => exact object.elim

/-- A step comes to the answer that two values are equal iff they are equal by what it is told of
the values that they hold. -/
theorem equalWith_eq_ok_true_iff : equalWith inner results v w = .ok true ↔
    results.EqualBy (fun v w => inner v w = .ok true) v w := by
  constructor
  · intro equal
    unfold equalWith at equal
    split at equal
    · exact .token trivial
    · exact .token trivial
    iterate 4
      · obtain rfl := eq_of_beq (Except.ok.inj equal)
        exact .token trivial
    · obtain ⟨rfl, token | single⟩ := sameFunction_iff.mp (Except.ok.inj equal)
      · exact .token token
      · exact .object trivial single
    · obtain ⟨single, same⟩ := results.runtime.same_iff.mp (Except.ok.inj equal)
      cases same
      exact .object trivial single
    · obtain rfl := eq_of_beq (Except.ok.inj equal)
      exact .token trivial
    · exact .list (equalLists_eq_ok_true_iff.mp equal)
    · split at equal
      · next same =>
        subst same
        exact .token trivial
      · have rows := equalLists_eq_ok_true_iff.mp equal
        exact .result (by simpa using rows)
    · split at equal
      · next listed => exact .left listed (equalRows_eq_ok_true_iff.mp equal)
      · cases equal
    · split at equal
      · next listed => exact .right listed (equalRows_eq_ok_true_iff.mp equal)
      · cases equal
    · split at equal
      · next first second => exact .tuple first second (equalItems_eq_ok_true_iff.mp equal)
      · split at equal
        · next first second => exact .number first second (Except.ok.inj equal)
        · cases equal
  · intro equal
    cases equal with
    | token token => exact equalWith_token token
    | object object single => exact equalWith_object object single
    | number first second same => rw [equalWith_number first second, same]
    | list items => exact equalLists_eq_ok_true_iff.mpr items
    | tuple first second items =>
      rw [equalWith_tuple first second]
      exact equalItems_eq_ok_true_iff.mpr items
    | @result a b rows =>
      rw [equalWith]
      split
      · rfl
      · exact equalLists_eq_ok_true_iff.mpr (by simpa using rows)
    | left listed rows =>
      rw [equalWith_left listed]
      exact equalRows_eq_ok_true_iff.mpr rows
    | right listed rows =>
      rw [equalWith_right listed]
      exact equalRows_eq_ok_true_iff.mpr rows

end Value

/-- What is so for each pair of two lists from some depth on is so for all of them. -/
theorem Deep.forall₂ {α β : Type} {P : α → β → Nat → Prop} {as : List α} {bs : List β}
    (each : List.Forall₂ (fun a b => Deep (P a b)) as bs) :
    Deep fun n => List.Forall₂ (fun a b => P a b n) as bs := by
  induction each with
  | nil => exact .always fun _ => .nil
  | cons first _ ih => exact first.both ih fun _ here others => .cons here others

/-! ## All steps -/

namespace Results

/-- Whether from some depth on the comparison of two values comes to `r`. -/
def Compares (results : Results) (v w : Value) (r : Except Error Bool) : Prop :=
  Deep fun n => Value.equal results n v w = liftM r

/-- Whether two values are equal. -/
def Equals (results : Results) (v w : Value) : Prop := results.Compares v w (.ok true)

variable {results : Results} {v w : Value} {vs ws es : List Value} {a : Nat}

theorem Compares.unique {h h' : Bool} (first : results.Compares v w (.ok h))
    (second : results.Compares v w (.ok h')) : h = h' := by
  obtain ⟨depth, ends⟩ := first.both second fun _ here there => here.symm.trans there
  exact Except.ok.inj (ends depth (Nat.le_refl _))

theorem equals_of_equal {n : Nat} (equal : Value.equal results n v w = .ok true) :
    results.Equals v w := by
  refine ⟨n, fun m le => ?_⟩
  rcases Value.sooner_equal le v w with out | same
  · rw [equal] at out
    cases out
  · exact same ▸ equal

/-- Whether items of collections are taken to be equal: if they are one object, or if they are. -/
def Matches (results : Results) (v w : Value) : Prop :=
  results.runtime.same v w = true ∨ results.Equals v w

theorem orSame_eq_ok_true_iff {inner : Value → Value → Except Stop Bool} :
    Value.orSame results inner v w = .ok true ↔
      results.runtime.same v w = true ∨ inner v w = .ok true := by
  rw [Value.orSame]
  split
  · next same => exact iff_of_true rfl (.inl same)
  · next different => exact (or_iff_right different).symm

/-- Comparing the items of collections comes to the same from some depth on. -/
theorem Matches.deep (same : results.Matches v w) :
    Deep fun n => Value.orSame results (Value.equal results n) v w = .ok true := by
  simp only [orSame_eq_ok_true_iff]
  rcases same with one | equals
  · exact .always fun _ => .inl one
  · exact equals.mono fun _ => .inr

theorem matches_of_orSame {n : Nat}
    (same : Value.orSame results (Value.equal results n) v w = .ok true) : results.Matches v w :=
  (orSame_eq_ok_true_iff.mp same).imp_right equals_of_equal

/-- Values that are built in different ways match only if they are equal. -/
theorem matches_iff_of_ne (different : v ≠ w) : results.Matches v w ↔ results.Equals v w :=
  or_iff_right fun same => different (results.runtime.same_iff.mp same).2

/-- Two values are equal iff one step says so, by what matches in them. -/
theorem equals_iff : results.Equals v w ↔ results.EqualBy results.Matches v w := by
  constructor
  · intro equals
    obtain ⟨n, step⟩ := equals.succ
    exact (Value.equalWith_eq_ok_true_iff.mp (step n (Nat.le_refl n))).mono fun _ _ =>
      matches_of_orSame
  · intro equal
    refine Deep.of_succ (Deep.mono ?_ fun n => Value.equalWith_eq_ok_true_iff.mpr)
    have items {vs ws} (all : List.Forall₂ results.Matches vs ws) := Deep.forall₂
      (all.imp fun _ _ => Matches.deep)
    have row {d e} : results.IsRow results.Matches d e → Deep fun n =>
        results.IsRow (fun v w => Value.orSame results (Value.equal results n) v w = .ok true)
          d e :=
      fun ⟨vs, items, same⟩ => same.deep.mono fun _ here => ⟨vs, items, here⟩
    cases equal with
    | token token => exact .always fun _ => .token token
    | object object single => exact .always fun _ => .object object single
    | number first second same => exact .always fun _ => .number first second same
    | list all => exact (items all).mono fun _ => .list
    | tuple first second all => exact (items all).mono fun _ => .tuple first second
    | result rows =>
      exact (Deep.forall₂ (rows.imp fun _ _ => Matches.deep)).mono fun n =>
        .result (R := fun v w => Value.orSame results (Value.equal results n) v w = .ok true)
    | left listed rows =>
      exact (Deep.forall₂ (rows.imp fun _ _ => row)).mono fun _ => .left listed
    | right listed rows =>
      exact (Deep.forall₂ (rows.imp fun _ _ => row)).mono fun _ => .right listed

/-- Equality is symmetric. -/
theorem Equals.symm (equals : results.Equals v w) : results.Equals w v := by
  obtain ⟨n, equal⟩ := equals
  have here := equal n (Nat.le_refl n)
  clear equal
  refine equals_of_equal (n := n) ?_
  have swap {inner : Value → Value → Except Stop Bool}
      (flip : ∀ v w, inner v w = .ok true → inner w v = .ok true) (v w : Value)
      (same : Value.orSame results inner v w = .ok true) :
      Value.orSame results inner w v = .ok true := by
    rw [orSame_eq_ok_true_iff] at same ⊢
    refine same.imp (fun one => ?_) (flip v w)
    obtain ⟨single, rfl⟩ := results.runtime.same_iff.mp one
    exact one
  induction n generalizing v w with
  | zero =>
    exact Value.equalWith_eq_ok_true_iff.mpr
      ((Value.equalWith_eq_ok_true_iff.mp here).symm (swap nofun))
  | succ n ih =>
    exact Value.equalWith_eq_ok_true_iff.mpr
      ((Value.equalWith_eq_ok_true_iff.mp here).symm (swap fun _ _ => ih))

theorem Matches.symm (same : results.Matches v w) : results.Matches w v := by
  refine same.imp (fun one => ?_) Equals.symm
  obtain ⟨single, rfl⟩ := results.runtime.same_iff.mp one
  exact one

/-! ## Sequences -/

/-- Tuples and derivations are compared item by item. -/
theorem equals_tuple_iff (first : v.tuple? = some vs) (second : w.tuple? = some ws) :
    results.Equals v w ↔ List.Forall₂ results.Matches vs ws := by
  refine ⟨fun equals => ?_, fun items => equals_iff.mpr (.tuple first second items)⟩
  have listed := Value.listed_of_tuple? first
  cases equals_iff.mp equals with
  | token token => exact absurd token (Value.not_isToken_of_listed listed)
  | object object => exact absurd object (Value.not_isObject_of_listed listed)
  | number number => cases number.symm.trans (Value.number?_of_listed listed)
  | tuple first' second' items =>
    cases first.symm.trans first'
    cases second.symm.trans second'
    exact items
  | list _ | result _ | left _ _ => cases first
  | right _ _ => cases second

/-- A result list and a list or tuple are compared row by row. -/
theorem equals_left_iff (listed : w.listOrTuple? = some es) : results.Equals (.result a) w ↔
    List.Forall₂ (results.IsRow results.Matches) (results.read a) es := by
  refine ⟨fun equals => ?_, fun rows => equals_iff.mpr (.left listed rows)⟩
  cases equals_iff.mp equals with
  | object object => exact object.elim
  | number number | tuple number => cases number
  | left listed' rows =>
    cases listed.symm.trans listed'
    exact rows
  | token _ | result _ | right _ _ => cases listed

/-- A row has two items, of which one matches the value and one the remainder. -/
theorem isRow_iff {d : Derivation} {e : Value} : results.IsRow results.Matches d e ↔
    ∃ v r, e.items results = .ok [v, r] ∧ results.Matches d.value v ∧
      results.Matches d.remainder r := by
  have pair {vs : List Value} : results.Matches d.toValue (.tuple vs) ↔
      List.Forall₂ results.Matches [d.value, d.remainder] vs := by
    have apart : d.toValue ≠ .tuple vs := nofun
    exact (matches_iff_of_ne apart).trans (equals_tuple_iff rfl rfl)
  constructor
  · rintro ⟨vs, items, equals⟩
    cases pair.mp equals with
    | cons first rest =>
      cases rest with
      | cons second none =>
        cases none
        exact ⟨_, _, items, first, second⟩
  · rintro ⟨v, r, items, first, second⟩
    exact ⟨[v, r], items, pair.mpr (.cons first (.cons second .nil))⟩

end Results

end GrammarKit
