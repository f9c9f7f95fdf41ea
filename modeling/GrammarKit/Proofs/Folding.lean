import GrammarKit.Proofs.Effects.Yields

/-! # Folding operators and operands

The two directions in which a chain is folded, as recursions over its operators and operands, and
that `foldOperands` is these recursions: from the left by going through the pairs, from the right
by going through them backwards, each operator meeting the operand before it.

The functions are known only by what they give for values that are `good`, such as numbers, and
they have to keep to those.
-/

namespace GrammarKit

variable {β : Type} (φ : β → Value → Value → Except Error Value)

/-- Operators and operands, each applied to what the ones before it gave. -/
def foldLeftWith (a : Value) : List (β × Value) → Except Error Value
  | [] => .ok a
  | (f, b) :: rest => do foldLeftWith (← φ f a b) rest

/-- Operators and operands, each applied to what the ones after it gave; `last` replaces the last
operand. -/
def foldRightOnto (a last : Value) : List (β × Value) → Except Error Value
  | [] => .ok last
  | (f, b) :: rest => do φ f a (← foldRightOnto b last rest)

/-- The operand that the first operator after some pairs meets. -/
def lastOperand (a : Value) : List (β × Value) → Value
  | [] => a
  | (_, b) :: rest => lastOperand b rest

/-- Operators and operands, each applied to what the ones after it gave. -/
def foldRightWith (a : Value) : List (β × Value) → Except Error Value
  | [] => .ok a
  | (f, b) :: rest => do φ f a (← foldRightWith b rest)

/-- A chain folded in one of the two directions. -/
def foldWith (rightmost : Bool) (a : Value) (pairs : List (β × Value)) : Except Error Value :=
  if rightmost then foldRightWith φ a pairs else foldLeftWith φ a pairs

theorem foldRightWith_eq (a : Value) (pairs : List (β × Value)) :
    foldRightWith φ a pairs = foldRightOnto φ a (lastOperand a pairs) pairs := by
  induction pairs generalizing a with
  | nil => rfl
  | cons pair pairs ih => simp only [foldRightWith, foldRightOnto, lastOperand, ih]

theorem lastOperand_concat (a b : Value) (f : β) (pairs : List (β × Value)) :
    lastOperand a (pairs ++ [(f, b)]) = b := by
  induction pairs generalizing a with
  | nil => rfl
  | cons pair pairs ih => exact ih pair.2

/-- The last operator is applied first. -/
theorem foldRightOnto_concat (a b last : Value) (f : β) (pairs : List (β × Value)) :
    foldRightOnto φ a last (pairs ++ [(f, b)]) =
      φ f (lastOperand a pairs) last >>= fun c => foldRightOnto φ a c pairs := by
  induction pairs generalizing a with
  | nil =>
    simp only [List.nil_append, foldRightOnto, lastOperand]
    exact (bind_pure _).symm
  | cons pair pairs ih =>
    simp only [List.cons_append, foldRightOnto, lastOperand, ih, bind_assoc]

/-- Whether functions keep to good values. -/
def KeepsTo (good : Value → Prop) : Prop :=
  ∀ f u v w, good u → good v → φ f u v = .ok w → good w

namespace KeepsTo

variable {φ} {good : Value → Prop}

theorem foldLeft (keeps : KeepsTo φ good) (pairs : List (β × Value)) {a v : Value}
    (first : good a) (all : ∀ p ∈ pairs, good p.2) (folded : foldLeftWith φ a pairs = .ok v) :
    good v := by
  induction pairs generalizing a with
  | nil =>
    cases folded
    exact first
  | cons p pairs ih =>
    obtain ⟨c, applied, folded⟩ := Except.bind_eq_ok_iff.mp folded
    have next := keeps p.1 a p.2 c first (all p List.mem_cons_self) applied
    exact ih next (fun q member => all q (List.mem_cons_of_mem _ member)) folded

theorem foldRight (keeps : KeepsTo φ good) (pairs : List (β × Value)) {a v : Value}
    (first : good a) (all : ∀ p ∈ pairs, good p.2) (folded : foldRightWith φ a pairs = .ok v) :
    good v := by
  induction pairs generalizing a v with
  | nil =>
    cases folded
    exact first
  | cons p pairs ih =>
    obtain ⟨c, rest, folded⟩ := Except.bind_eq_ok_iff.mp folded
    have operand := all p List.mem_cons_self
    have after := ih operand (fun q member => all q (List.mem_cons_of_mem _ member)) rest
    exact keeps p.1 a c v first after folded

/-- Folding keeps to what is good. -/
theorem fold (keeps : KeepsTo φ good) {rightmost : Bool} {pairs : List (β × Value)} {a v : Value}
    (first : good a) (all : ∀ p ∈ pairs, good p.2)
    (folded : foldWith φ rightmost a pairs = .ok v) : good v := by
  cases rightmost with
  | false => exact keeps.foldLeft pairs first all folded
  | true => exact keeps.foldRight pairs first all folded

end KeepsTo

/-- From the right, pairs are folded onto the operand of the last one. -/
theorem Evaluator.foldOperands_reverse (ev : Evaluator) (a last : Value) (before : List Value) :
    ev.foldOperands true a (.list (last :: before).reverse) =
      itemOf last 1 >>= fun gathered => ev.foldRight a gathered (last :: before) := by
  funext s
  have some_ : truth (.list (last :: before).reverse) s = .ok true s := by
    have holds : (Value.list (last :: before).reverse).truth s.results = true := by
      simp [Value.truth]
    exact congrArg (EStateM.Result.ok · s) holds
  have items : (Value.list (last :: before).reverse).items s.results =
      .ok (last :: before).reverse := rfl
  unfold foldOperands
  rw [if_pos rfl, Eval.bind_of_eq_ok some_, if_pos rfl, Eval.readResults_bind,
    Eval.lift_bind items, List.reverse_reverse]

namespace Effects

/-- What functions give for good values, which is good again. -/
structure Operates (b : Effects) (good : Value → Prop) (function : β → Value)
    (φ : β → Value → Value → Except Error Value) : Prop where
  gives : ∀ f v w, good v → good w → b.Gives (function f) [v, w] (φ f v w)
  keeps : KeepsTo φ good

namespace Operates

variable {φ} {b : Effects} {good : Value → Prop} {function : β → Value}

/-- An operator and its operand, as they are gathered. -/
def pair (function : β → Value) (p : β × Value) : Value := .tuple [function p.1, p.2]

theorem settles_itemOf_zero (p : β × Value) :
    b.Settles (fun _ => Evaluator.itemOf (pair function p) 0) (.ok (function p.1)) :=
  Settles.lift (.ok (function p.1))

theorem settles_itemOf_one (p : β × Value) :
    b.Settles (fun _ => Evaluator.itemOf (pair function p) 1) (.ok p.2) :=
  Settles.lift (.ok p.2)

theorem settles_foldLeft (operates : b.Operates good function φ) (pairs : List (β × Value))
    {a : Value} (first : good a) (all : ∀ p ∈ pairs, good p.2) :
    b.Settles (fun ev => ev.foldLeft a (pairs.map (pair function))) (foldLeftWith φ a pairs) := by
  induction pairs generalizing a with
  | nil => exact Settles.lift (.ok a)
  | cons p pairs ih =>
    obtain ⟨f, w⟩ := p
    have operand := all (f, w) List.mem_cons_self
    refine Settles.bind_all (operates.gives f a w first operand) fun c applied => ?_
    have next := operates.keeps f a w c first operand applied
    exact ih next fun p member => all p (List.mem_cons_of_mem _ member)

/-- Going through the pairs backwards folds them from the right. -/
theorem settles_foldRight (operates : b.Operates good function φ) (backwards : List (β × Value))
    {a gathered : Value} (first : good a) (last : good gathered)
    (all : ∀ p ∈ backwards, good p.2) :
    b.Settles (fun ev => ev.foldRight a gathered (backwards.map (pair function)))
      (foldRightOnto φ a gathered backwards.reverse) := by
  induction backwards generalizing gathered with
  | nil => exact Settles.lift (.ok gathered)
  | cons p before ih =>
    obtain ⟨f, w⟩ := p
    have others := fun p member => all p (List.mem_cons_of_mem _ member)
    rw [List.reverse_cons, foldRightOnto_concat]
    refine Settles.bind (settles_itemOf_zero (f, w)) ?_
    -- The operand that `f` meets is that of the pair before it, if there is one.
    cases before with
    | nil =>
      simp only [List.map_nil, pure_bind]
      refine Settles.bind_all (operates.gives f a gathered first last) fun c applied => ?_
      exact ih (operates.keeps f a gathered c first last applied) others
    | cons previous rest =>
      obtain ⟨g, d⟩ := previous
      have operand := others (g, d) List.mem_cons_self
      rw [List.reverse_cons, lastOperand_concat, ← List.reverse_cons]
      simp only [List.map_cons]
      refine Settles.bind (settles_itemOf_one (g, d)) ?_
      refine Settles.bind_all (operates.gives f d gathered operand last) fun c applied => ?_
      exact ih (operates.keeps f d gathered c operand last applied) others

/-- The two directions of a chain. -/
theorem settles_foldOperands (operates : b.Operates good function φ) (rightmost : Bool)
    (pairs : List (β × Value)) {a : Value} (first : good a) (all : ∀ p ∈ pairs, good p.2) :
    b.Settles (fun ev => ev.foldOperands rightmost a (.list (pairs.map (pair function))))
      (foldWith φ rightmost a pairs) := by
  cases rightmost with
  | false => exact operates.settles_foldLeft pairs first all
  | true =>
    change b.Settles _ (foldRightWith φ a pairs)
    rw [foldRightWith_eq, ← List.reverse_reverse pairs]
    have all' : ∀ p ∈ pairs.reverse, good p.2 := fun p member => all p (List.mem_reverse.mp member)
    generalize pairs.reverse = backwards at all'
    rw [List.map_reverse]
    cases backwards with
    | nil => exact Settles.lift (.ok a)
    | cons p before =>
      obtain ⟨f, w⟩ := p
      have last := all' (f, w) List.mem_cons_self
      have folded := operates.settles_foldRight ((f, w) :: before) first last all'
      rw [List.reverse_cons, lastOperand_concat, ← List.reverse_cons]
      have whole : b.Settles (fun ev => Evaluator.itemOf (pair function (f, w)) 1 >>= fun v =>
          ev.foldRight a v (((f, w) :: before).map (pair function))) _ :=
        (settles_itemOf_one (f, w)).bind folded
      exact whole.congr fun n s _ =>
        congrFun (Evaluator.foldOperands_reverse _ a _ (before.map (pair function))) s

end Operates

end Effects

end GrammarKit
