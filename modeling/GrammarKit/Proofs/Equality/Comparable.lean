import GrammarKit.Proofs.Effects.Equality
import GrammarKit.Proofs.Equality.Basic

/-! # Values that can be compared

A comparison raises an error where a result list meets a list or tuple with an element that is no
collection, and it has no end where result lists hold themselves. `Results.Comparable` keeps clear
of both: it is inductive, so there is an end to it, and result lists meet only lists and tuples of
tuples. Comparisons of such values come to an answer, whatever it is. Values that hold no result
lists are always comparable.
-/

namespace GrammarKit

namespace Results

/-- Whether two values can be compared, as can the values that they hold, each with its counterpart:
where one is a result list and the other a list or tuple, the elements of that one are tuples or
derivations. -/
inductive Comparable (results : Results) : Value → Value → Prop where
  | scalar {v w : Value} (scalar : v.IsScalar ∨ w.IsScalar) : Comparable results v w
  | apart {v w : Value} {vs ws : List Value} (first : v.listOrTuple? = some vs)
      (second : w.listOrTuple? = some ws) (kinds : v.tuple?.isSome ≠ w.tuple?.isSome) :
      Comparable results v w
  | list {vs ws : List Value} (items : ∀ p ∈ vs.zip ws, Comparable results p.1 p.2) :
      Comparable results (.list vs) (.list ws)
  | tuple {v w : Value} {vs ws : List Value} (first : v.tuple? = some vs)
      (second : w.tuple? = some ws) (items : ∀ p ∈ vs.zip ws, Comparable results p.1 p.2) :
      Comparable results v w
  | result {a b : Nat} (rows : ∀ p ∈ (results.read a).zip (results.read b),
      Comparable results p.1.toValue p.2.toValue) : Comparable results (.result a) (.result b)
  | left {a : Nat} {w : Value} {es : List Value} (listed : w.listOrTuple? = some es)
      (tuples : ∀ e ∈ es, ∃ us, e.tuple? = some us)
      (rows : ∀ p ∈ (results.read a).zip es, Comparable results p.1.toValue p.2) :
      Comparable results (.result a) w
  | right {a : Nat} {v : Value} {es : List Value} (listed : v.listOrTuple? = some es)
      (tuples : ∀ e ∈ es, ∃ us, e.tuple? = some us)
      (rows : ∀ p ∈ (results.read a).zip es, Comparable results p.1.toValue p.2) :
      Comparable results v (.result a)

end Results

namespace Value

variable {results : Results} {v w e : Value} {vs ws es : List Value} {a : Nat}

theorem not_isScalar_of_listed (listed : v.listOrTuple? = some es) : ¬v.IsScalar := by
  cases v with
  | list _ | tuple _ | derivation _ _ => exact id
  | _ => cases listed

/-! ## Rows -/

/-- The items of a tuple or derivation, as a tuple. -/
def asTuple : Value → Value
  | .derivation v r => .tuple [v, r]
  | v => v

theorem items_of_tuple? (items : v.tuple? = some vs) : v.items results = .ok vs := by
  cases v with
  | tuple _ | derivation _ _ =>
    cases items
    rfl
  | _ => cases items

theorem row_of_tuple? (items : v.tuple? = some vs) : v.row results = .ok v.asTuple := by
  rw [row, items_of_tuple? items]
  cases v with
  | tuple _ | derivation _ _ =>
    cases items
    rfl
  | _ => cases items

theorem equal_asTuple (d : Derivation) (e : Value) (n : Nat) :
    equal results n d.toValue e.asTuple = equal results n d.toValue e := by
  cases e with
  | derivation _ _ => cases n <;> rfl
  | _ => rfl

/-- Tuples are rows as they are. -/
theorem mapM_row_of_tuples (tuples : ∀ e ∈ es, ∃ us, e.tuple? = some us) :
    es.mapM (row results) = .ok (es.map asTuple) := by
  rw [← Except.mapM_ok]
  refine Except.mapM_congr fun e member => ?_
  obtain ⟨us, items⟩ := tuples e member
  exact row_of_tuple? items

/-- What a value that holds no others is compared with does not matter either. -/
theorem exists_equalWith_of_isScalar_left (runtime : Runtime) (scalar : v.IsScalar) :
    ∃ h, ∀ inner results, results.runtime = runtime → equalWith inner results v w = .ok h := by
  cases w with
  | list _ | tuple _ | derivation _ _ | result _ =>
    refine ⟨false, fun _ _ _ => ?_⟩
    cases v with
    | list _ | tuple _ | derivation _ _ | result _ => exact scalar.elim
    | _ => rfl
  | _ =>
    refine exists_equalWith_of_isScalar runtime ?_ v
    trivial

/-! ## Lists of values that compare -/

/-- Items that compare are compared as items as well. -/
theorem exists_orSame {v w : Value} (compares : ∃ h, results.Compares v w (.ok h)) :
    ∃ h, Deep fun n => orSame results (equal results n) v w = .ok h := by
  simp only [orSame]
  split
  · exact ⟨true, .always fun _ => rfl⟩
  · exact compares

theorem exists_equalItems_zip
    (compares : ∀ p ∈ vs.zip ws, ∃ h, results.Compares p.1 p.2 (.ok h)) :
    ∃ h, Deep fun n => equalItems (orSame results (equal results n)) vs ws = .ok h := by
  obtain ⟨h, ends⟩ := exists_equalItems (ι := Unit) fun p member =>
    (exists_orSame (compares p member)).imp fun _ here => here.mono fun _ ends _ => ends
  exact ⟨h, ends.mono fun n all => all ()⟩

theorem exists_equalLists_zip
    (compares : ∀ p ∈ vs.zip ws, ∃ h, results.Compares p.1 p.2 (.ok h)) :
    ∃ h, Deep fun n => equalLists (orSame results (equal results n)) vs ws = .ok h := by
  by_cases count : vs.length = ws.length
  · obtain ⟨h, items⟩ := exists_equalItems_zip compares
    refine ⟨h, items.mono fun n here => ?_⟩
    rw [equalLists, if_pos count, here]
  · exact ⟨false, .always fun n => by rw [equalLists, if_neg count]; rfl⟩

/-- A result list and a list compare where the derivations compare with the rows. -/
theorem exists_equalRows {rows : List Value} (made : es.mapM (row results) = .ok rows)
    (compares : ∀ p ∈ ((results.read a).map Derivation.toValue).zip rows,
      ∃ h, results.Compares p.1 p.2 (.ok h)) :
    ∃ h, Deep fun n =>
      equalRows (orSame results (equal results n)) results (results.read a) es = .ok h := by
  obtain ⟨h, ends⟩ := exists_equalLists_zip compares
  refine ⟨h, ends.mono fun n here => ?_⟩
  rw [equalRows_eq, made]
  exact here

/-- With tuples it is enough that the derivations compare with these. -/
theorem exists_equalRows_of_tuples (tuples : ∀ e ∈ es, ∃ us, e.tuple? = some us)
    (compares : ∀ p ∈ (results.read a).zip es, ∃ h, results.Compares p.1.toValue p.2 (.ok h)) :
    ∃ h, Deep fun n =>
      equalRows (orSame results (equal results n)) results (results.read a) es = .ok h := by
  refine exists_equalRows (mapM_row_of_tuples tuples) ?_
  rw [List.zip_map, List.forall_mem_map]
  rintro ⟨d, e⟩ member
  obtain ⟨h, ends⟩ := compares _ member
  exact ⟨h, ends.mono fun n here => (equal_asTuple d e n).trans here⟩

end Value

namespace Results

variable {results : Results} {v w : Value} {vs ws es : List Value} {a : Nat}

/-- A value that holds no others is compared with every value, from either side. -/
theorem exists_compares_scalar (scalar : v.IsScalar ∨ w.IsScalar) :
    ∃ h, results.Compares v w (.ok h) := by
  have step : ∃ h, ∀ inner results', results'.runtime = results.runtime →
      Value.equalWith inner results' v w = .ok h :=
    scalar.elim (Value.exists_equalWith_of_isScalar_left results.runtime)
      (Value.exists_equalWith_of_isScalar results.runtime · v)
  obtain ⟨h, step⟩ := step
  refine ⟨h, .always fun n => ?_⟩
  obtain ⟨inner, same⟩ := Value.equal_eq_equalWith results n v w
  rw [same, step _ _ rfl]
  rfl

/-- A list and a tuple are not equal, whatever they hold. -/
theorem compares_apart (first : v.listOrTuple? = some vs) (second : w.listOrTuple? = some ws)
    (kinds : v.tuple?.isSome ≠ w.tuple?.isSome) : results.Compares v w (.ok false) := by
  refine .of_succ (.always fun n => ?_)
  cases v with
  | list _ =>
    cases w with
    | list _ => exact absurd rfl kinds
    | tuple _ | derivation _ _ => rfl
    | _ => cases second
  | tuple _ | derivation _ _ =>
    cases w with
    | list _ => rfl
    | tuple _ | derivation _ _ => exact absurd rfl kinds
    | _ => cases second
  | _ => cases first

/-- Comparisons of what can be compared come to an answer. -/
theorem Comparable.exists_compares (comparable : results.Comparable v w) :
    ∃ h, results.Compares v w (.ok h) := by
  induction comparable with
  | scalar scalar => exact exists_compares_scalar scalar
  | apart first second kinds => exact ⟨false, compares_apart first second kinds⟩
  | list _ ih =>
    obtain ⟨h, ends⟩ := Value.exists_equalLists_zip ih
    exact ⟨h, .of_succ ends⟩
  | tuple first second _ ih =>
    obtain ⟨h, ends⟩ := Value.exists_equalItems_zip ih
    refine ⟨h, .of_succ (ends.mono fun n here => ?_)⟩
    rw [Value.equal, Value.equalWith_tuple first second, here]
    rfl
  | @result a b _ ih =>
    have zipped : ∀ p ∈ ((results.read a).map Derivation.toValue).zip
        ((results.read b).map Derivation.toValue), ∃ h, results.Compares p.1 p.2 (.ok h) := by
      rw [List.zip_map, List.forall_mem_map]
      exact ih
    obtain ⟨h, ends⟩ := Value.exists_equalLists_zip zipped
    by_cases same : a = b
    · refine ⟨true, .of_succ (.always fun n => ?_)⟩
      rw [Value.equal, Value.equalWith, if_pos same]
      rfl
    · refine ⟨h, .of_succ (ends.mono fun n here => ?_)⟩
      rw [Value.equal, Value.equalWith, if_neg same, here]
      rfl
  | left listed tuples _ ih =>
    obtain ⟨h, ends⟩ := Value.exists_equalRows_of_tuples tuples ih
    refine ⟨h, .of_succ (ends.mono fun n here => ?_)⟩
    rw [Value.equal, Value.equalWith_left listed, here]
    rfl
  | right listed tuples _ ih =>
    obtain ⟨h, ends⟩ := Value.exists_equalRows_of_tuples tuples ih
    refine ⟨h, .of_succ (ends.mono fun n here => ?_)⟩
    rw [Value.equal, Value.equalWith_right listed, here]
    rfl

end Results

/-! ## Values without result lists -/

/-- Whether a value holds no result lists. -/
inductive Value.IsFreestanding : Value → Prop where
  | scalar {v : Value} (scalar : v.IsScalar) : IsFreestanding v
  | list {vs : List Value} (items : ∀ v ∈ vs, IsFreestanding v) : IsFreestanding (.list vs)
  | tuple {v : Value} {vs : List Value} (sequence : v.tuple? = some vs)
      (items : ∀ v ∈ vs, IsFreestanding v) : IsFreestanding v

/-- Values that hold no result lists are comparable. -/
theorem Results.comparable_of_isFreestanding {results : Results} {v w : Value}
    (free : v.IsFreestanding) (free' : w.IsFreestanding) : results.Comparable v w := by
  induction free generalizing w with
  | scalar scalar => exact .scalar (.inl scalar)
  | list _ ih =>
    cases free' with
    | scalar scalar => exact .scalar (.inr scalar)
    | list items =>
      exact .list fun p member =>
        ih p.1 (List.of_mem_zip member).1 (items p.2 (List.of_mem_zip member).2)
    | tuple sequence _ =>
      exact .apart rfl (Value.listed_of_tuple? sequence) (by rw [sequence]; nofun)
  | tuple sequence _ ih =>
    cases free' with
    | scalar scalar => exact .scalar (.inr scalar)
    | list _ =>
      exact .apart (Value.listed_of_tuple? sequence) rfl (by rw [sequence]; nofun)
    | tuple sequence' items =>
      exact .tuple sequence sequence' fun p member =>
        ih p.1 (List.of_mem_zip member).1 (items p.2 (List.of_mem_zip member).2)

end GrammarKit
