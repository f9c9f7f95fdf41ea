import GrammarKit.Proofs.Branching.Accumulation
import GrammarKit.Proofs.Expression.Parsers

/-! # Ordinary values

What grammars compute with: truth values, numbers, texts and bytes, the functions of the arithmetic
operators, and lists and tuples of all these. None of them refers to the store, so what they hold,
how they compare with texts and what operators make of them is the same everywhere, and they can
always be shown. Operators and accumulations lead from ordinary values to ordinary ones.
-/

namespace GrammarKit

namespace Value

/-- Whether a value is a scalar, an arithmetic operator, or a list or tuple of such values. -/
inductive IsOrdinary : Value → Prop where
  | none : IsOrdinary .none
  | bool (b : Bool) : IsOrdinary (.bool b)
  | int (n : Int) : IsOrdinary (.int n)
  | float (x : Float) : IsOrdinary (.float x)
  | text (cs : List Char) : IsOrdinary (.text cs)
  | bytes (bs : List UInt8) : IsOrdinary (.bytes bs)
  | list {vs : List Value} (items : ∀ v ∈ vs, IsOrdinary v) : IsOrdinary (.list vs)
  | tuple {vs : List Value} (items : ∀ v ∈ vs, IsOrdinary v) : IsOrdinary (.tuple vs)
  | operator (o : Expression.Operator) : IsOrdinary (.function (.primitive o.primitive))

namespace IsOrdinary

variable {v w : Value} {vs ws : List Value}

theorem ofChars (cs : List Char) : ∀ v ∈ Value.ofChars cs, v.IsOrdinary :=
  List.forall_mem_map.mpr fun c _ => .text [c]

theorem ofNumber (n : Number) : (Value.ofNumber n).IsOrdinary := by
  cases n with
  | int n => exact .int n
  | float x => exact .float x

theorem shows (b : Effects) (ordinary : v.IsOrdinary) : b.Shows v := by
  induction ordinary with
  | list _ ih => exact .of_parts (shownBy_list _) ih
  | tuple _ ih => exact .of_parts (shownBy_tuple _) ih
  | _ => exact .of_display fun _ fuel => by cases fuel <;> exact ⟨_, rfl⟩

/-! ## What ordinary values hold -/

/-- The items of an ordinary value do not depend on the result lists. -/
theorem items_eq (ordinary : v.IsOrdinary) (results : Results) :
    v.items results = v.items {} := by
  cases ordinary <;> rfl

theorem of_items (ordinary : v.IsOrdinary) {results : Results}
    (items : v.items results = .ok vs) : ∀ w ∈ vs, w.IsOrdinary := by
  cases ordinary with
  | text cs =>
    cases items
    exact ofChars cs
  | bytes bs =>
    cases items
    exact List.forall_mem_map.mpr fun b _ => .int b.toNat
  | list all | tuple all =>
    cases items
    exact all
  | _ => cases items

theorem index_eq (ordinary : v.IsOrdinary) (results : Results) (key : Value) :
    v.index results key = v.index {} key := by
  simp only [index, ordinary.items_eq results]

theorem of_index (ordinary : v.IsOrdinary) {results : Results} {key : Value}
    (found : v.index results key = .ok w) : w.IsOrdinary := by
  obtain ⟨vs, items, found⟩ := Except.bind_eq_ok_iff.mp found
  obtain ⟨k, _, found⟩ := Except.bind_eq_ok_iff.mp found
  dsimp only at found
  generalize (if k < 0 then k + (vs.length : Int) else k) = place at found
  split at found
  · cases found
  split at found
  · next item here =>
    cases found
    exact ordinary.of_items items _ (List.mem_of_getElem? here)
  · cases found

theorem unpair_eq (ordinary : v.IsOrdinary) (results : Results) :
    v.unpair results = v.unpair {} := by
  simp only [unpair, ordinary.items_eq results]

theorem of_unpair (ordinary : v.IsOrdinary) {results : Results} {pair : Value × Value}
    (found : v.unpair results = .ok pair) : pair.1.IsOrdinary ∧ pair.2.IsOrdinary := by
  obtain ⟨vs, items, found⟩ := Except.bind_eq_ok_iff.mp found
  have all := ordinary.of_items items
  split at found
  · cases found
    exact ⟨all _ (by simp), all _ (by simp)⟩
  · cases found

theorem truth_eq (ordinary : v.IsOrdinary) (results : Results) :
    v.truth results = v.truth {} := by
  cases ordinary <;> rfl

theorem of_toList (ordinary : v.IsOrdinary) : ∀ w ∈ v.toList, w.IsOrdinary := by
  cases ordinary with
  | list all | tuple all => exact all
  | _ => exact List.forall_mem_singleton.mpr (by constructor)

/-- Ordinary values compare with texts wherever they are, and a text is equal to itself. -/
theorem exists_orSame_text (ordinary : v.IsOrdinary) (cs : List Char) :
    ∃ h, ∀ results fuel, orSame results (equal results fuel) (.text cs) v = .ok h := by
  cases ordinary with
  | text ds =>
    refine ⟨cs == ds, fun results fuel => orSame_of_eq_ok (equal_text results fuel cs ds) ?_⟩
    intro own
    cases own
    exact beq_self_eq_true cs
  | operator o =>
    refine ⟨false, fun results fuel => orSame_of_eq_ok ?_ nofun⟩
    cases o <;> cases fuel <;> rfl
  | _ =>
    exact ⟨false, fun results fuel => orSame_of_eq_ok (by cases fuel <;> rfl) nofun⟩

/-- Whether one of several texts is an ordinary value. -/
theorem exists_anyEqual (ordinary : v.IsOrdinary) (texts : ∀ w ∈ ws, ∃ cs, w = .text cs) :
    ∃ h, ∀ results fuel, anyEqual results fuel v ws = .ok h := by
  induction ws with
  | nil => exact ⟨false, fun _ _ => rfl⟩
  | cons w ws ih =>
    obtain ⟨⟨cs, rfl⟩, others⟩ := List.forall_mem_cons.mp texts
    obtain ⟨here, compared⟩ := ordinary.exists_orSame_text cs
    obtain ⟨h, further⟩ := ih others
    refine ⟨here || h, fun results fuel => ?_⟩
    rw [anyEqual, compared]
    cases here with
    | true => rfl
    | false => exact further results fuel

/-! ## What is made of ordinary values -/

theorem of_add (first : v.IsOrdinary) (second : w.IsOrdinary) {u : Value}
    (sum : v.add w = .ok u) : u.IsOrdinary := by
  cases first with
  | text x =>
    cases second with
    | text y =>
      cases sum
      exact .text _
    | _ => cases sum
  | bytes x =>
    cases second with
    | bytes y =>
      cases sum
      exact .bytes _
    | _ => cases sum
  | list items =>
    cases second with
    | list items' =>
      cases sum
      exact .list (List.forall_mem_append.mpr ⟨items, items'⟩)
    | _ => cases sum
  | tuple items =>
    cases second with
    | tuple items' =>
      cases sum
      exact .tuple (List.forall_mem_append.mpr ⟨items, items'⟩)
    | _ => cases sum
  | _ =>
    cases second with
    | tuple _ => cases sum
    | _ =>
      obtain ⟨n, rfl⟩ := Expression.isNumber_of_onNumbers sum
      exact ofNumber n

theorem of_repeatList {n : Int} (all : ∀ v ∈ vs, v.IsOrdinary)
    (repeated : repeatList n vs = .ok ws) : ∀ w ∈ ws, w.IsOrdinary := by
  unfold repeatList at repeated
  split at repeated
  · cases repeated
    exact List.forall_mem_nil _
  split at repeated
  · cases repeated
  · cases repeated
    intro w member
    obtain ⟨copy, among, inside⟩ := List.mem_flatten.mp member
    rw [List.eq_of_mem_replicate among] at inside
    exact all w inside

theorem of_repeatBy (first : v.IsOrdinary) {u : Value} (product : repeatBy v w = .ok u) :
    u.IsOrdinary := by
  obtain ⟨n, _, product⟩ := Except.bind_eq_ok_iff.mp product
  split at product
  · cases product
  cases first with
  | text cs =>
    obtain ⟨_, _, rfl⟩ := Except.map_eq_ok_iff.mp product
    exact .text _
  | bytes bs =>
    obtain ⟨_, _, rfl⟩ := Except.map_eq_ok_iff.mp product
    exact .bytes _
  | list items =>
    obtain ⟨_, copies, rfl⟩ := Except.map_eq_ok_iff.mp product
    exact .list (of_repeatList items copies)
  | tuple items =>
    obtain ⟨_, copies, rfl⟩ := Except.map_eq_ok_iff.mp product
    exact .tuple (of_repeatList items copies)
  | _ => cases product

/-- What an operator makes of ordinary values is ordinary. -/
theorem of_apply {o : Expression.Operator} (first : v.IsOrdinary) (second : w.IsOrdinary)
    {u : Value} (applied : o.apply v w = .ok u) : u.IsOrdinary := by
  cases o with
  | add => exact first.of_add second applied
  | multiply =>
    change multiply v w = .ok u at applied
    unfold multiply at applied
    split at applied
    · exact first.of_repeatBy applied
    split at applied
    · exact second.of_repeatBy applied
    · obtain ⟨n, rfl⟩ := Expression.isNumber_of_onNumbers applied
      exact ofNumber n
  | _ =>
    obtain ⟨n, rfl⟩ := Expression.isNumber_of_onNumbers applied
    exact ofNumber n

/-- What is read from a value as a whole number. -/
theorem of_toInteger {runtime : Runtime} {u : Value} (read : toInteger runtime v = .ok u) :
    ∃ n, u = .int n := by
  unfold toInteger at read
  split at read
  · obtain ⟨cs, _, read⟩ := Except.bind_eq_ok_iff.mp read
    unfold readInteger at read
    split at read
    · split at read
      · cases read
        exact ⟨_, rfl⟩
      · cases read
    · cases read
  · obtain ⟨_, _, read⟩ := Except.bind_eq_ok_iff.mp read
    obtain ⟨n, _, read⟩ := Except.bind_eq_ok_iff.mp read
    cases read
    exact ⟨n, rfl⟩

/-- What repeated values amount to. -/
theorem of_accumulateValues {s : Strategy} (all : ∀ v ∈ vs, v.IsOrdinary) {u : Value}
    (gathered : accumulateValues (.strategy s) vs = .ok u) : u.IsOrdinary := by
  cases s with
  | sequence =>
    cases gathered
    exact .list all
  | text =>
    rw [accumulateValues_text] at gathered
    split at gathered
    · cases gathered
      exact .text _
    · cases gathered

end IsOrdinary

end Value

end GrammarKit
