import GrammarKit.Proofs.Eval
import GrammarKit.Value.Display

/-! # Plain sequences

Texts, bytes, lists and tuples: the inputs whose length cannot change while a parser works on
them. Derivations have a length as well, but a slice of one is a tuple, and result lists can grow.
-/

namespace GrammarKit.Value

/-- Whether a value is a text, bytes, a list or a tuple. -/
def IsSequence : Value → Prop
  | .text _ | .bytes _ | .list _ | .tuple _ => True
  | _ => False

/-- The number of items of a plain sequence. -/
def width : Value → Nat
  | .text cs => cs.length
  | .bytes bs => bs.length
  | .list vs => vs.length
  | .tuple vs => vs.length
  | _ => 0

/-- The length of a plain sequence is its own, whatever the store holds. -/
theorem length_of_isSequence {v : Value} (sequence : v.IsSequence) (results : Results) :
    v.length results = .ok v.width := by
  cases v with
  | text _ | bytes _ | list _ | tuple _ => rfl
  | _ => exact sequence.elim

/-- A slice is a plain sequence, whatever was sliced. -/
theorem isSequence_of_slice {results : Results} {v start stop step w : Value}
    (cut : v.slice results start stop step = .ok w) : w.IsSequence := by
  cases v with
  | text _ | bytes _ | list _ | tuple _ | derivation _ _ | result _ =>
    obtain ⟨_, _, rfl⟩ := Except.map_eq_ok_iff.mp cut
    trivial
  | _ => cases cut

/-- A plain sequence without its first `k` items. -/
def drop (k : Nat) : Value → Value
  | .text cs => .text (cs.drop k)
  | .bytes bs => .bytes (bs.drop k)
  | .list vs => .list (vs.drop k)
  | .tuple vs => .tuple (vs.drop k)
  | v => v

/-- A slice from a position on drops what is before it. -/
theorem slice_natCast {v : Value} (sequence : v.IsSequence) (results : Results) (k : Nat) :
    v.slice results (.int k) .none .none = .ok (v.drop k) := by
  cases v with
  | text xs | bytes xs | list xs | tuple xs =>
    have cut := sliceList_drop xs k
    simpa [slice, bound, position, drop, Functor.map, Except.map, bind, Except.bind, pure,
      Except.pure] using cut
  | _ => exact sequence.elim

@[simp] theorem drop_zero (v : Value) : v.drop 0 = v := by
  cases v <;> rfl

theorem drop_drop (j k : Nat) (v : Value) : (v.drop j).drop k = v.drop (j + k) := by
  cases v <;> simp [drop, List.drop_drop]

/-- What is left of a plain sequence is one. -/
theorem isSequence_drop {v : Value} (sequence : v.IsSequence) (k : Nat) :
    (v.drop k).IsSequence := by
  cases v <;> trivial

/-- The items of a plain sequence. -/
def elements : Value → List Value
  | .text cs => ofChars cs
  | .bytes bs => ofBytes bs
  | .list vs => vs
  | .tuple vs => vs
  | _ => []

@[simp] theorem length_elements (v : Value) : v.elements.length = v.width := by
  cases v <;> simp [elements, width, ofChars, ofBytes]

theorem elements_drop (v : Value) (k : Nat) : (v.drop k).elements = v.elements.drop k := by
  cases v <;> simp [elements, drop, ofChars, ofBytes]

/-- A plain sequence is its first item and what is left without it. -/
theorem uncons?_of_isSequence {v : Value} (sequence : v.IsSequence) (results : Results) :
    v.uncons? results = .ok (v.elements.head?.map fun head => (head, v.drop 1)) := by
  cases v with
  | text xs | bytes xs | list xs | tuple xs => cases xs <;> rfl
  | _ => exact sequence.elim

/-- Whether a value is what is left of `input` without some of its first items. -/
def IsTailOf (v input : Value) : Prop := ∃ k ≤ input.width, v = input.drop k

theorem IsTailOf.refl (v : Value) : v.IsTailOf v :=
  ⟨0, Nat.zero_le _, v.drop_zero.symm⟩

theorem IsTailOf.trans {u v w : Value} (first : u.IsTailOf v) (second : v.IsTailOf w) :
    u.IsTailOf w := by
  obtain ⟨j, short, rfl⟩ := first
  obtain ⟨k, inside, rfl⟩ := second
  refine ⟨k + j, ?_, ?_⟩
  · cases w <;> simp only [width, drop, List.length_drop] at short inside ⊢ <;> omega
  · exact drop_drop k j w

/-- What is left of a plain sequence is one, of the same kind. -/
theorem IsTailOf.isSequence {v input : Value} (tail : v.IsTailOf input)
    (sequence : input.IsSequence) : v.IsSequence := by
  obtain ⟨k, _, rfl⟩ := tail
  exact isSequence_drop sequence k

theorem IsTailOf.kindName {v input : Value} (tail : v.IsTailOf input) :
    v.kindName = input.kindName := by
  obtain ⟨k, _, rfl⟩ := tail
  cases input <;> rfl

/-- The rest after the first item is a tail. -/
theorem isTailOf_of_uncons? {results : Results} {input head rest : Value}
    (sequence : input.IsSequence) (split : input.uncons? results = .ok (some (head, rest))) :
    rest.IsTailOf input := by
  cases input with
  | text xs | bytes xs | list xs | tuple xs =>
    cases xs with
    | nil => cases split
    | cons x xs =>
      cases split
      exact ⟨1, Nat.succ_le_succ (Nat.zero_le _), rfl⟩
  | _ => exact sequence.elim

end GrammarKit.Value
