import GrammarKit.Evaluation.Method
import GrammarKit.Proofs.Eval

/-! # Properties that pass from values to what is made of them

Taking apart, slicing, joining and calculating with values gives values that are made of items that
went in, or that hold nothing at all. A property of values is hereditary if collections have it
where their items do: it then passes on to whatever the operations give, as long as it passes from
result lists to their derivations.
-/

namespace GrammarKit

theorem mem_of_mem_sliceBetween {α : Type} {xs : List α} {start stop : Option Int} {x : α}
    (member : x ∈ sliceBetween xs start stop) : x ∈ xs := by
  have kept : x ∈ sliceBetween xs none stop := by
    cases start with
    | none => exact member
    | some bound => exact List.mem_of_mem_drop member
  cases stop with
  | none => exact kept
  | some bound => exact List.mem_of_mem_take kept

/-- A slice has no items of its own. -/
theorem mem_of_mem_sliceList {α : Type} {xs : List α} {start stop : Option Int} {step : Int} {x : α}
    (member : x ∈ sliceList xs start stop step) : x ∈ xs := by
  unfold sliceList at member
  split at member
  · exact mem_of_mem_sliceBetween member
  · obtain ⟨k, _, found⟩ := List.mem_filterMap.mp member
    rw [List.getElem?_toArray] at found
    exact List.mem_of_getElem? found

theorem mem_of_mem_repeatList {α : Type} {n : Int} {xs ys : List α}
    (copied : Value.repeatList n xs = .ok ys) : ∀ x ∈ ys, x ∈ xs := by
  unfold Value.repeatList at copied
  split at copied
  · cases copied
    exact List.forall_mem_nil _
  · split at copied
    · cases copied
    · cases copied
      intro x member
      obtain ⟨copy, inside, member⟩ := List.mem_flatten.mp member
      rwa [List.eq_of_mem_replicate inside] at member

/-- The paths that derivations open go one derivation further each. -/
theorem Path.exists_of_mem_extendAll {results : Results} {path : Path} {ds : List Derivation} :
    ∀ opened, path.extendAll results ds = .ok opened → opened.length = ds.length ∧
      ∀ p ∈ opened, ∃ d ∈ ds, p.values = d.value :: path.values ∧ p.remainder = d.remainder := by
  unfold Path.extendAll
  induction ds with
  | nil =>
    intro opened extended
    cases extended
    exact ⟨rfl, List.forall_mem_nil _⟩
  | cons d ds ih =>
    intro opened extended
    rw [List.mapM_cons] at extended
    obtain ⟨next, head, extended⟩ := Except.bind_eq_ok_iff.mp extended
    obtain ⟨others, tail, extended⟩ := Except.bind_eq_ok_iff.mp extended
    cases extended
    obtain ⟨left, _, head⟩ := Except.bind_eq_ok_iff.mp head
    obtain ⟨before, _, head⟩ := Except.bind_eq_ok_iff.mp head
    cases head
    obtain ⟨length, rest⟩ := ih others tail
    refine ⟨congrArg Nat.succ length, fun p member => ?_⟩
    rcases List.mem_cons.mp member with rfl | member
    · exact ⟨d, List.mem_cons_self, rfl, rfl⟩
    · obtain ⟨e, inside, same⟩ := rest p member
      exact ⟨e, List.mem_cons_of_mem _ inside, same⟩

/-- Texts in one are a text. -/
theorem eq_text_of_concatenate (vs : List Value) :
    ∀ v, accumulateValues.concatenate vs = .ok v → ∃ cs, v = .text cs := by
  induction vs with
  | nil =>
    intro v joined
    cases joined
    exact ⟨_, rfl⟩
  | cons u vs ih =>
    intro v joined
    cases u with
    | text cs =>
      obtain ⟨rest, joined, last⟩ := Except.bind_eq_ok_iff.mp joined
      obtain ⟨ds, rfl⟩ := ih rest joined
      cases last
      exact ⟨_, rfl⟩
    | _ => cases joined

namespace Value

/-- Whether a value holds no other ones. -/
@[simp] def IsAtom : Value → Prop
  | .list _ | .tuple _ | .derivation _ _ | .result _ | .cell _ | .parser _ | .function _ => False
  | _ => True

theorem isAtom_ofNumber (n : Number) : (ofNumber n).IsAtom := by
  cases n <;> trivial

/-- What is calculated from numbers is one. -/
theorem isAtom_of_onNumbers {operation : Number → Number → Except Error Number} {a b w : Value}
    (calculated : onNumbers operation a b = .ok w) : w.IsAtom := by
  obtain ⟨m, _, calculated⟩ := Except.bind_eq_ok_iff.mp calculated
  obtain ⟨n, _, calculated⟩ := Except.bind_eq_ok_iff.mp calculated
  obtain ⟨k, _, calculated⟩ := Except.bind_eq_ok_iff.mp calculated
  cases calculated
  exact isAtom_ofNumber k

theorem isAtom_of_negate {v w : Value} (opposite : v.negate = .ok w) : w.IsAtom := by
  obtain ⟨n, _, opposite⟩ := Except.bind_eq_ok_iff.mp opposite
  cases opposite
  exact isAtom_ofNumber n.negate

theorem isAtom_of_magnitude {v w : Value} (absolute : v.magnitude = .ok w) : w.IsAtom := by
  obtain ⟨n, _, absolute⟩ := Except.bind_eq_ok_iff.mp absolute
  cases absolute
  exact isAtom_ofNumber n.magnitude

theorem isAtom_of_readInteger {runtime : Runtime} {base : Nat} {cs : List Char} {w : Value}
    (read : readInteger runtime base cs = .ok w) : w.IsAtom := by
  unfold readInteger at read
  split at read
  · split at read
    · cases read
      trivial
    · cases read
  · cases read

theorem isAtom_of_toInteger {runtime : Runtime} {v w : Value}
    (read : v.toInteger runtime = .ok w) : w.IsAtom := by
  unfold toInteger at read
  split at read
  · obtain ⟨cs, _, read⟩ := Except.bind_eq_ok_iff.mp read
    exact isAtom_of_readInteger read
  · obtain ⟨n, _, read⟩ := Except.bind_eq_ok_iff.mp read
    obtain ⟨k, _, read⟩ := Except.bind_eq_ok_iff.mp read
    cases read
    trivial

theorem isAtom_of_toIntegerIn {runtime : Runtime} {base v w : Value}
    (read : toIntegerIn runtime base v = .ok w) : w.IsAtom := by
  obtain ⟨b, _, read⟩ := Except.bind_eq_ok_iff.mp read
  dsimp only at read
  split at read
  · cases read
  · split at read
    · obtain ⟨cs, _, read⟩ := Except.bind_eq_ok_iff.mp read
      exact isAtom_of_readInteger read
    · cases read

theorem isAtom_of_decodeText {bs : List UInt8} {encoding treatment : List Char} {w : Value}
    (decoded : decodeText bs encoding treatment = .ok w) : w.IsAtom := by
  unfold decodeText at decoded
  split at decoded
  · cases decoded
    trivial
  split at decoded
  · dsimp only at decoded
    split at decoded
    · cases decoded
      trivial
    split at decoded
    · split at decoded
      · cases decoded
        trivial
      · cases decoded
    · cases decoded
  · cases decoded

/-- A property of values that atoms have, and collections where their items do. -/
structure Hereditary (P : Value → Prop) : Prop where
  atom : ∀ v : Value, v.IsAtom → P v
  list : ∀ vs, P (.list vs) ↔ ∀ v ∈ vs, P v
  tuple : ∀ vs, P (.tuple vs) ↔ ∀ v ∈ vs, P v
  derivation : ∀ v w, P (.derivation v w) ↔ P v ∧ P w

end Value

/-- Whether the derivations in the result lists that have a property have it as well. -/
def Results.All (P : Value → Prop) (results : Results) : Prop :=
  ∀ address, P (.result address) → ∀ d ∈ results.read address, P d.toValue

namespace Value.Hereditary

variable {P : Value → Prop} (passes : Hereditary P) {results : Results} {v w : Value}

include passes

omit passes in
private theorem pair : (∀ u ∈ [v, w], P u) ↔ P v ∧ P w := by
  rw [List.forall_mem_cons, List.forall_mem_singleton]

theorem items {vs : List Value} (store : results.All P) (holds : P v)
    (items : v.items results = .ok vs) : ∀ w ∈ vs, P w := by
  cases v with
  | text cs =>
    cases items
    intro w member
    obtain ⟨c, _, rfl⟩ := List.mem_map.mp member
    exact passes.atom _ trivial
  | bytes bs =>
    cases items
    intro w member
    obtain ⟨b, _, rfl⟩ := List.mem_map.mp member
    exact passes.atom _ trivial
  | list vs =>
    cases items
    exact (passes.list _).mp holds
  | tuple vs =>
    cases items
    exact (passes.tuple _).mp holds
  | derivation v w =>
    cases items
    exact pair.mpr ((passes.derivation v w).mp holds)
  | result address =>
    cases items
    intro w member
    obtain ⟨d, inside, rfl⟩ := List.mem_map.mp member
    exact store address holds d inside
  | _ => cases items

theorem index {key : Value} (store : results.All P) (holds : P v)
    (item : v.index results key = .ok w) : P w := by
  obtain ⟨vs, items, item⟩ := Except.bind_eq_ok_iff.mp item
  obtain ⟨k, _, item⟩ := Except.bind_eq_ok_iff.mp item
  dsimp only at item
  generalize (if k < 0 then k + (vs.length : Int) else k) = place at item
  split at item
  · cases item
  · cases found : vs[place.toNat]? with
    | none =>
      rw [found] at item
      cases item
    | some u =>
      rw [found] at item
      cases item
      exact passes.items store holds items _ (List.mem_of_getElem? found)

theorem unpair {both : Value × Value} (store : results.All P) (holds : P v)
    (items : v.unpair results = .ok both) : P both.1 ∧ P both.2 := by
  obtain ⟨vs, items, found⟩ := Except.bind_eq_ok_iff.mp items
  have all := passes.items store holds items
  split at found
  · cases found
    exact pair.mp all
  · cases found

theorem toDerivation {d : Derivation} (store : results.All P) (holds : P v)
    (items : v.toDerivation results = .ok d) : P d.toValue := by
  obtain ⟨vs, items, found⟩ := Except.bind_eq_ok_iff.mp items
  have all := passes.items store holds items
  split at found
  · cases found
    exact (passes.derivation _ _).mpr (pair.mp all)
  · cases found

theorem uncons? {rest : Value} (store : results.All P) (holds : P v)
    (split : v.uncons? results = .ok (some (w, rest))) : P w ∧ P rest := by
  cases v with
  | text cs =>
    cases cs <;> cases split
    exact ⟨passes.atom _ trivial, passes.atom _ trivial⟩
  | bytes bs =>
    cases bs <;> cases split
    exact ⟨passes.atom _ trivial, passes.atom _ trivial⟩
  | list vs =>
    cases vs <;> cases split
    have all := List.forall_mem_cons.mp ((passes.list _).mp holds)
    exact ⟨all.1, (passes.list _).mpr all.2⟩
  | tuple vs =>
    cases vs <;> cases split
    have all := List.forall_mem_cons.mp ((passes.tuple _).mp holds)
    exact ⟨all.1, (passes.tuple _).mpr all.2⟩
  | derivation v w =>
    cases split
    obtain ⟨first, second⟩ := (passes.derivation _ _).mp holds
    exact ⟨first, (passes.tuple _).mpr (List.forall_mem_singleton.mpr second)⟩
  | result address =>
    have all := store address holds
    simp only [Value.uncons?] at split
    cases found : results.read address with
    | nil =>
      rw [found] at split
      cases split
    | cons d ds =>
      rw [found] at split all
      cases split
      refine ⟨all d List.mem_cons_self, (passes.list _).mpr ?_⟩
      intro u member
      obtain ⟨other, inside, rfl⟩ := List.mem_map.mp member
      exact all other (List.mem_cons_of_mem _ inside)
  | _ => cases split

omit passes in
private theorem mem_of_mem_cut {α : Type} {xs ys : List α} {start stop step : Value}
    (cut : (do
      let every := (← bound step).getD 1
      if every = 0 then throw .zeroStep
      return sliceList xs (← bound start) (← bound stop) every : Except Error (List α)) = .ok ys) :
    ∀ x ∈ ys, x ∈ xs := by
  obtain ⟨every, _, cut⟩ := Except.bind_eq_ok_iff.mp cut
  dsimp only at cut
  split at cut
  · cases cut
  · obtain ⟨first, _, cut⟩ := Except.bind_eq_ok_iff.mp cut
    obtain ⟨last, _, cut⟩ := Except.bind_eq_ok_iff.mp cut
    cases cut
    exact fun x member => mem_of_mem_sliceList member

/-- The items of a slice are items of what was sliced. -/
theorem slice {start stop step : Value} (store : results.All P) (holds : P v)
    (cut : v.slice results start stop step = .ok w) : P w := by
  cases v with
  | text _ | bytes _ =>
    obtain ⟨_, _, rfl⟩ := Except.map_eq_ok_iff.mp cut
    exact passes.atom _ trivial
  | list vs | result _ =>
    have all := passes.items store holds rfl
    obtain ⟨ws, part, rfl⟩ := Except.map_eq_ok_iff.mp cut
    exact (passes.list _).mpr fun w member => all w (mem_of_mem_cut part w member)
  | tuple vs | derivation _ _ =>
    have all := passes.items store holds rfl
    obtain ⟨ws, part, rfl⟩ := Except.map_eq_ok_iff.mp cut
    exact (passes.tuple _).mpr fun w member => all w (mem_of_mem_cut part w member)
  | _ => cases cut

theorem toList (holds : P v) : ∀ w ∈ v.toList, P w := by
  cases v with
  | list vs => exact (passes.list _).mp holds
  | tuple vs => exact (passes.tuple _).mp holds
  | derivation v w => exact pair.mpr ((passes.derivation v w).mp holds)
  | _ => exact List.forall_mem_singleton.mpr holds

theorem tuple? {vs : List Value} (holds : P v) (items : v.tuple? = some vs) : ∀ w ∈ vs, P w := by
  cases v with
  | tuple vs =>
    cases items
    exact (passes.tuple _).mp holds
  | derivation v w =>
    cases items
    exact pair.mpr ((passes.derivation v w).mp holds)
  | _ => cases items

theorem add {a b : Value} (left : P a) (right : P b) (sum : a.add b = .ok w) : P w := by
  unfold Value.add at sum
  split at sum
  · cases sum
    exact passes.atom _ trivial
  · cases sum
    exact passes.atom _ trivial
  · cases sum
    have first := (passes.list _).mp left
    have second := (passes.list _).mp right
    exact (passes.list _).mpr (List.forall_mem_append.mpr ⟨first, second⟩)
  · split at sum
    · next first second =>
      cases sum
      exact (passes.tuple _).mpr
        (List.forall_mem_append.mpr ⟨passes.tuple? left first, passes.tuple? right second⟩)
    · exact passes.atom _ (isAtom_of_onNumbers sum)

theorem repeatBy {times : Value} (holds : P v) (copied : v.repeatBy times = .ok w) : P w := by
  obtain ⟨n, _, copied⟩ := Except.bind_eq_ok_iff.mp copied
  dsimp only at copied
  split at copied
  · cases copied
  · cases v with
    | text _ | bytes _ =>
      obtain ⟨_, _, rfl⟩ := Except.map_eq_ok_iff.mp copied
      exact passes.atom _ trivial
    | list vs =>
      have all := (passes.list _).mp holds
      obtain ⟨ws, copies, rfl⟩ := Except.map_eq_ok_iff.mp copied
      exact (passes.list _).mpr fun w member => all w (mem_of_mem_repeatList copies w member)
    | tuple vs =>
      have all := (passes.tuple _).mp holds
      obtain ⟨ws, copies, rfl⟩ := Except.map_eq_ok_iff.mp copied
      exact (passes.tuple _).mpr fun w member => all w (mem_of_mem_repeatList copies w member)
    | derivation v w =>
      have all := pair.mpr ((passes.derivation v w).mp holds)
      obtain ⟨ws, copies, rfl⟩ := Except.map_eq_ok_iff.mp copied
      exact (passes.tuple _).mpr fun w member => all w (mem_of_mem_repeatList copies w member)
    | _ => cases copied

theorem multiply {a b : Value} (left : P a) (right : P b) (product : a.multiply b = .ok w) :
    P w := by
  unfold Value.multiply at product
  split at product
  · exact passes.repeatBy left product
  · split at product
    · exact passes.repeatBy right product
    · exact passes.atom _ (isAtom_of_onNumbers product)

omit passes in
/-- What is selected is one of the values it is selected from. -/
theorem selectBest {before : Value → Value → Except Stop Bool} {best : Value} (vs : List Value)
    (first : P best) (all : ∀ v ∈ vs, P v)
    (selected : Value.selectBest before best vs = .ok w) : P w := by
  induction vs generalizing best with
  | nil =>
    cases selected
    exact first
  | cons v vs ih =>
    have rest := fun u member => all u (List.mem_cons_of_mem _ member)
    obtain ⟨better, _, selected⟩ := Except.bind_eq_ok_iff.mp selected
    split at selected
    · exact ih (all v List.mem_cons_self) rest selected
    · exact ih first rest selected

theorem candidates {vs ws : List Value} (store : results.All P) (all : ∀ v ∈ vs, P v)
    (found : Value.select.candidates results vs = .ok ws) : ∀ v ∈ ws, P v := by
  unfold Value.select.candidates at found
  split at found
  · cases found
  · exact passes.items store (all _ List.mem_cons_self) found
  · cases found
    exact all

theorem select {before : Value → Value → Except Stop Bool} {vs : List Value}
    (store : results.All P) (all : ∀ v ∈ vs, P v)
    (selected : Value.select before results vs = .ok w) : P w := by
  obtain ⟨candidates, found, selected⟩ := Except.bind_eq_ok_iff.mp selected
  have holds := passes.candidates store all (Except.lift_eq_ok_iff.mp found)
  split at selected
  · cases selected
  · exact selectBest _ (holds _ List.mem_cons_self)
      (fun v member => holds v (List.mem_cons_of_mem _ member)) selected

/-- A named function passes the property on from its arguments. -/
theorem applyPrimitive {fuel : Nat} {p : Primitive} {arguments : List Value}
    (store : results.All P) (all : ∀ v ∈ arguments, P v)
    (applied : Value.applyPrimitive results fuel p arguments = .ok w) : P w := by
  have number {operation : Number → Number → Except Error Number} {a b : Value}
      (calculated : (liftM (onNumbers operation a b) : Except Stop Value) = .ok w) : P w :=
    passes.atom _ (isAtom_of_onNumbers (Except.lift_eq_ok_iff.mp calculated))
  unfold Value.applyPrimitive at applied
  split at applied
  · exact passes.add (all _ (by simp)) (all _ (by simp)) (Except.lift_eq_ok_iff.mp applied)
  · exact number applied
  · exact passes.multiply (all _ (by simp)) (all _ (by simp)) (Except.lift_eq_ok_iff.mp applied)
  · exact number applied
  · exact number applied
  · obtain ⟨n, _, applied⟩ := Except.bind_eq_ok_iff.mp applied
    cases applied
    exact passes.atom _ trivial
  · exact passes.atom _ (isAtom_of_magnitude (Except.lift_eq_ok_iff.mp applied))
  · exact passes.select store all applied
  · exact passes.select store all applied
  · cases applied

/-- A kind passes the property on from its arguments. -/
theorem construct {fuel : Nat} {k : Kind} {arguments : List Value} (store : results.All P)
    (all : ∀ v ∈ arguments, P v)
    (made : Value.construct results fuel k arguments = .ok w) : P w := by
  unfold Value.construct at made
  split at made
  · cases made
    exact passes.atom _ trivial
  · obtain ⟨cs, _, made⟩ := Except.bind_eq_ok_iff.mp made
    cases made
    exact passes.atom _ trivial
  · exact passes.atom _ (isAtom_of_decodeText (Except.lift_eq_ok_iff.mp made))
  · exact passes.atom _ (isAtom_of_decodeText (Except.lift_eq_ok_iff.mp made))
  · cases made
    exact (passes.list []).mpr (List.forall_mem_nil _)
  · obtain ⟨vs, items, made⟩ := Except.bind_eq_ok_iff.mp made
    cases made
    exact (passes.list _).mpr
      (passes.items store (all _ List.mem_cons_self) (Except.lift_eq_ok_iff.mp items))
  · cases made
    exact (passes.tuple []).mpr (List.forall_mem_nil _)
  · obtain ⟨vs, items, made⟩ := Except.bind_eq_ok_iff.mp made
    cases made
    exact (passes.tuple _).mpr
      (passes.items store (all _ List.mem_cons_self) (Except.lift_eq_ok_iff.mp items))
  · cases made
    exact passes.atom _ trivial
  · exact passes.atom _ (isAtom_of_toInteger (Except.lift_eq_ok_iff.mp made))
  · exact passes.atom _ (isAtom_of_toIntegerIn (Except.lift_eq_ok_iff.mp made))
  · cases made

theorem accumulateValues {accumulate : Value} {vs : List Value} (all : ∀ v ∈ vs, P v)
    (gathered : GrammarKit.accumulateValues accumulate vs = .ok v) : P v := by
  unfold GrammarKit.accumulateValues at gathered
  split at gathered
  · cases gathered
    exact (passes.list _).mpr all
  · obtain ⟨cs, rfl⟩ := eq_text_of_concatenate vs v gathered
    exact passes.atom _ trivial

/-- The splits of an input are made of its items. -/
theorem splitAt (store : results.All P) (holds : P v) (sizes : List Value) :
    ∀ ds, Evaluator.splitAt results v sizes = .ok ds → ∀ d ∈ ds, P d.toValue := by
  induction sizes with
  | nil =>
    intro ds split
    cases split
    exact List.forall_mem_nil _
  | cons n sizes ih =>
    intro ds split
    obtain ⟨length, _, split⟩ := Except.bind_eq_ok_iff.mp split
    obtain ⟨fits, _, split⟩ := Except.bind_eq_ok_iff.mp split
    dsimp only at split
    split at split
    · obtain ⟨before, cut, split⟩ := Except.bind_eq_ok_iff.mp split
      obtain ⟨after, cut', split⟩ := Except.bind_eq_ok_iff.mp split
      obtain ⟨others, rest, split⟩ := Except.bind_eq_ok_iff.mp split
      cases split
      refine List.forall_mem_cons.mpr ⟨(passes.derivation _ _).mpr ?_, ih others rest⟩
      exact ⟨passes.slice store holds cut, passes.slice store holds cut'⟩
    · exact ih ds split

theorem toDerivations (store : results.All P) {pairs : List Value} (all : ∀ pair ∈ pairs, P pair) :
    ∀ ds, pairs.mapM (Value.toDerivation results) = .ok ds → ∀ d ∈ ds, P d.toValue := by
  induction pairs with
  | nil =>
    intro ds read
    cases read
    exact List.forall_mem_nil _
  | cons pair pairs ih =>
    intro ds read
    obtain ⟨here, others⟩ := List.forall_mem_cons.mp all
    rw [List.mapM_cons] at read
    obtain ⟨d, head, read⟩ := Except.bind_eq_ok_iff.mp read
    obtain ⟨ds', tail, read⟩ := Except.bind_eq_ok_iff.mp read
    cases read
    exact List.forall_mem_cons.mpr ⟨passes.toDerivation store here head, ih others ds' tail⟩

/-- The values of nested pairs are items of theirs. -/
theorem chainValues (store : results.All P) (fuel : Nat) : ∀ {link : Value} {vs : List Value},
    P link → Evaluator.chainValues results fuel link = .ok vs → ∀ v ∈ vs, P v := by
  induction fuel with
  | zero =>
    intro link vs _ found
    cases link <;> cases found
    exact List.forall_mem_nil _
  | succ fuel ih =>
    intro link vs holds found
    cases link with
    | none =>
      cases found
      exact List.forall_mem_nil _
    | _ =>
      obtain ⟨value, first, found⟩ := Except.bind_eq_ok_iff.mp found
      obtain ⟨previous, second, found⟩ := Except.bind_eq_ok_iff.mp found
      obtain ⟨others, rest, found⟩ := Except.bind_eq_ok_iff.mp found
      cases found
      have first := passes.index store holds (Except.lift_eq_ok_iff.mp first)
      have second := passes.index store holds (Except.lift_eq_ok_iff.mp second)
      exact List.forall_mem_cons.mpr ⟨first, ih second rest⟩

omit passes in
/-- The derivations that left nothing are among all of them. -/
theorem completeOnes (ds : List Derivation) :
    ∀ complete, Evaluator.completeOnes results ds = .ok complete → ∀ d ∈ complete, d ∈ ds := by
  induction ds with
  | nil =>
    intro complete found
    cases found
    exact List.forall_mem_nil _
  | cons d ds ih =>
    intro complete found
    obtain ⟨left, _, found⟩ := Except.bind_eq_ok_iff.mp found
    obtain ⟨others, rest, found⟩ := Except.bind_eq_ok_iff.mp found
    cases found
    have inside := fun e member => List.mem_cons_of_mem d (ih others rest e member)
    split
    · exact List.forall_mem_cons.mpr ⟨List.mem_cons_self, inside⟩
    · exact inside

end Value.Hereditary

end GrammarKit
