import GrammarKit.Proofs.Characters
import GrammarKit.Proofs.Deep
import Mathlib.Data.List.Forall2

/-! # Comparing values

A comparison may go as deep as the values are nested, and by way of the store even deeper, and some
comparisons are errors. `Equates` tells of two values what their comparison comes to. Values that
hold no others always compare, with whatever there is.
-/

namespace GrammarKit

namespace Value

/-- Whether a value holds no other values that a comparison would have to look at. -/
def IsScalar : Value → Prop
  | .list _ | .tuple _ | .derivation _ _ | .result _ => False
  | _ => True

section

variable {inner : Value → Value → Except Stop Bool} {results : Results} {v w : Value}

/-- What equals a value that is neither a parser nor missing is no such thing either. -/
theorem isPlain_of_equalWith (plain : w.IsPlain) (same : equalWith inner results v w = .ok true) :
    v.IsPlain := by
  cases v with
  | missing | parser _ =>
    cases w with
    | missing | parser _ => exact plain
    | _ => cases same
  | _ => trivial

theorem eq_text_of_equalWith {cs : List Char}
    (same : equalWith inner results v (.text cs) = .ok true) : v = .text cs := by
  cases v with
  | text ds =>
    have equal : (ds == cs) = true := Except.ok.inj same
    rw [beq_iff_eq.mp equal]
  | _ => cases same

/-- A comparison with such a value depends on nothing else but the runtime. -/
theorem exists_equalWith_of_isScalar (runtime : Runtime) (scalar : w.IsScalar) (v : Value) :
    ∃ h, ∀ inner results, results.runtime = runtime → equalWith inner results v w = .ok h := by
  cases w with
  | list _ | tuple _ | derivation _ _ | result _ => exact scalar.elim
  | function g =>
    cases v with
    | function f =>
      exact ⟨sameFunction runtime f g, fun _ _ ran => by rw [equalWith, ran]; rfl⟩
    | _ => exact ⟨false, fun _ _ _ => rfl⟩
  | parser q =>
    cases v with
    | parser p =>
      exact ⟨runtime.same (.parser p) (.parser q), fun _ _ ran => by rw [equalWith, ran]; rfl⟩
    | _ => exact ⟨false, fun _ _ _ => rfl⟩
  | _ => cases v with | _ => exact ⟨_, fun _ _ _ => rfl⟩

end

/-- Lists are compared item by item where each item compares with its counterpart, whatever else the
comparisons may depend on. -/
theorem exists_equalItems {ι : Type} {inner : ι → Nat → Value → Value → Except Stop Bool}
    {vs ws : List Value}
    (compares : ∀ p ∈ vs.zip ws, ∃ h, Deep fun n => ∀ i, inner i n p.1 p.2 = .ok h) :
    ∃ h, Deep fun n => ∀ i, equalItems (inner i n) vs ws = .ok h := by
  induction vs generalizing ws with
  | nil => cases ws <;> exact ⟨_, .always fun _ _ => rfl⟩
  | cons v vs ih =>
    cases ws with
    | nil => exact ⟨_, .always fun _ _ => rfl⟩
    | cons w ws =>
      rw [List.zip_cons_cons, List.forall_mem_cons] at compares
      obtain ⟨h, first⟩ := compares.1
      obtain ⟨h', others⟩ := ih compares.2
      refine ⟨h && h', first.both others fun n here there i => ?_⟩
      rw [equalItems, here i]
      cases h with
      | true => exact there i
      | false => rfl

/-- What the comparison with a value that holds no others comes to. -/
def equalsScalar (runtime : Runtime) (v w : Value) : Bool :=
  match equal { runtime := runtime } 0 v w with
  | .ok h => h
  | .error _ => false

/-- The comparison of any depth is one step of it. -/
theorem equal_eq_equalWith (results : Results) (fuel : Nat) (v w : Value) :
    ∃ inner, equal results fuel v w = equalWith (orSame results inner) results v w := by
  cases fuel with
  | zero => exact ⟨_, rfl⟩
  | succ fuel => exact ⟨_, rfl⟩

/-- Items that are equal are so whether or not they are one object. -/
theorem orSame_of_eq_true {results : Results} {inner : Value → Value → Except Stop Bool}
    {v w : Value} (same : inner v w = .ok true) : orSame results inner v w = .ok true :=
  orSame_of_eq_ok same fun _ => rfl

end Value

namespace Effects

/-- Whether from some depth on the comparison of two values comes to `h`. -/
def Equates (b : Effects) (v w : Value) (h : Bool) : Prop :=
  Deep fun n => ∀ s, b.start s → Value.equal s.results n v w = .ok h

namespace Equates

variable {b : Effects} {v w : Value} {h : Bool}

/-- With a value that holds no others, every value compares. -/
theorem of_isScalar (b : Effects) (scalar : w.IsScalar) (v : Value) :
    b.Equates v w (v.equalsScalar b.runtime w) := by
  obtain ⟨h, equates⟩ := Value.exists_equalWith_of_isScalar b.runtime scalar v
  refine .always fun n s start => ?_
  obtain ⟨inner, step⟩ := Value.equal_eq_equalWith s.results n v w
  rw [step, equates _ _ (b.ran s start), Value.equalsScalar, Value.equal, equates _ _ rfl]

/-- There is a comparison that has come to its end. -/
theorem exists_equalWith {s : Store} (start : b.start s) (equates : b.Equates v w h) :
    ∃ inner results, Value.equalWith inner results v w = .ok h := by
  obtain ⟨depth, ends⟩ := equates
  obtain ⟨inner, step⟩ := Value.equal_eq_equalWith s.results depth v w
  exact ⟨_, s.results, step ▸ ends depth (Nat.le_refl _) s start⟩

theorem text (b : Effects) (cs ds : List Char) : b.Equates (.text cs) (.text ds) (cs == ds) :=
  .always fun n s _ => Value.equal_text s.results n cs ds

/-- Lists whose items are equal, one by one, are equal. -/
theorem list {vs ws : List Value} (items : List.Forall₂ (b.Equates · · true) vs ws) :
    b.Equates (.list vs) (.list ws) true := by
  have count : vs.length = ws.length := items.length_eq
  have each : Deep fun n => ∀ s, b.start s →
      Value.equalItems (Value.orSame s.results (Value.equal s.results n)) vs ws = .ok true := by
    clear count
    induction items with
    | nil => exact .always fun _ _ _ => rfl
    | cons first _ ih =>
      refine first.both ih fun n here others s start => ?_
      rw [Value.equalItems, Value.orSame_of_eq_true (here s start)]
      exact others s start
  refine Deep.of_succ (each.mono fun n all s start => ?_)
  rw [Value.equal, Value.equalWith, Value.equalLists, if_pos count]
  exact all s start

/-- Lists of different lengths are not equal, whatever their items are. -/
theorem list_of_length_ne {vs ws : List Value} (count : vs.length ≠ ws.length) :
    b.Equates (.list vs) (.list ws) false := by
  refine .always fun n s _ => ?_
  obtain ⟨inner, step⟩ := Value.equal_eq_equalWith s.results n (.list vs) (.list ws)
  rw [step, Value.equalWith, Value.equalLists, if_neg count]
  rfl

end Equates

variable {b : Effects} {v w : Value} {h : Bool}

/-- An evaluator compares values to its own depth. -/
theorem settles_equal (equates : b.Equates v w h) : b.Settles (fun ev => ev.equal v w) (.ok h) := by
  have deeper : Deep fun n => ∀ s, b.start s → (evaluator n).equal v w s = .ok h s := by
    refine Deep.of_succ (equates.mono fun n ends s start => ?_)
    change (liftM (Value.equal s.results n v w) : Eval Bool) s = _
    rw [ends s start]
    rfl
  obtain ⟨depth, ends⟩ := deeper
  exact ⟨depth, fun n deep s start => ⟨s, b.refl s start, ends n deep s start⟩⟩

/-- The step that compares with a value. -/
theorem gives_equals (equates : b.Equates v w h) :
    b.Gives (.function (.equals w)) [v] (.ok (.bool h)) :=
  .of_step (fun _ => rfl) ((settles_equal equates).bind (Settles.lift (.ok (Value.bool h))))

end Effects

end GrammarKit
