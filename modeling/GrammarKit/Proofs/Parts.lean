import GrammarKit.Proofs.Within.Combinators

/-! # What values are shown by

A value is shown by the texts of its parts, and a result list by those of its derivations. What is
the case where nothing is left to be shown, and passes from parts to what they are parts of, is
therefore the case of every text; `Compositional` says which properties pass on like this.
-/

namespace GrammarKit

/-- The values that show where a parser is shown by how it is built. -/
def Shape.parts : Shape → List Value
  | .unit v | .foreign v => [v]
  | .negation p | .bind p _ _ | .many p _ => [p.toValue]
  | .choice ps => ps.map Parser.toValue
  | _ => []

/-- The values that show where a value is shown. -/
def Value.parts (results : Results) : Value → List Value
  | .list vs | .tuple vs => vs
  | .derivation v r => [v, r]
  | .result address => (results.read address).flatMap fun d => [d.value, d.remainder]
  | .parser p => p.shape.parts
  | _ => []

@[simp] theorem Value.parts_unlimited (results : Results) (v : Value) :
    v.parts results.unlimited = v.parts results := by
  cases v <;> rfl

/-- Whether a value is a part of another one. -/
def Results.IsPart (results : Results) (v w : Value) : Prop := v ∈ w.parts results

/-- Parts are within the bounds of what they are parts of. -/
theorem Value.Within.of_isPart {b : Bounds} {results : Results}
    (store : results.All (Value.Within b)) {v w : Value} (within : w.Within b)
    (part : results.IsPart v w) : v.Within b := by
  have both {u r : Value} (derivation : u.Within b ∧ r.Within b) : ∀ v ∈ [u, r], v.Within b :=
    List.forall_mem_cons.mpr ⟨derivation.1, List.forall_mem_singleton.mpr derivation.2⟩
  cases w with
  | list vs | tuple vs => exact (Value.allWithin_iff vs).mp within v part
  | derivation u r => exact both within v part
  | result address =>
    obtain ⟨d, member, here⟩ := List.mem_flatMap.mp part
    exact both (store address within d member) v here
  | parser p =>
    obtain ⟨shape, mapping, name⟩ := p
    have parts : shape.Within b := within.1
    cases shape with
    | unit u | foreign u => exact List.mem_singleton.mp part ▸ parts
    | negation p => exact List.mem_singleton.mp part ▸ Parser.Within.toValue (p := p) parts
    | bind p _ _ | many p _ => exact List.mem_singleton.mp part ▸ parts.1.toValue
    | choice ps =>
      obtain ⟨p, member, rfl⟩ := List.mem_map.mp part
      exact ((Parser.allWithin_iff ps).mp parts p member).toValue
    | _ => cases part
  | _ => cases part

/-! ## Properties of texts -/

/-- Whether a property of computations passes from the parts of a sequence to the sequence. -/
structure Compositional (C : {α : Type} → Except Stop α → Prop) : Prop where
  ok : ∀ {α : Type} (a : α), C (.ok a)
  bind : ∀ {α β : Type} {x : Except Stop α} {f : α → Except Stop β}, C x → (∀ a, C (f a)) →
    C (x >>= f)

namespace Compositional

variable {C : {α : Type} → Except Stop α → Prop} (passes : Compositional C) {results : Results}
  {inner : Value → Except Stop (List Char)}

include passes

theorem mapM {α β : Type} {f : α → Except Stop β} {as : List α} (each : ∀ a ∈ as, C (f a)) :
    C (as.mapM f) := by
  induction as with
  | nil => exact passes.ok []
  | cons a as ih =>
    rw [List.mapM_cons]
    obtain ⟨here, others⟩ := List.forall_mem_cons.mp each
    exact passes.bind here fun b => passes.bind (ih others) fun bs => passes.ok _

theorem showShape {shape : Shape} (parts : ∀ u ∈ shape.parts, C (inner u)) :
    C (Value.showShape inner shape) := by
  cases shape with
  | unit u =>
    have only := parts u List.mem_cons_self
    cases u with
    | missing => exact passes.ok _
    | _ => exact passes.bind only fun _ => passes.ok _
  | foreign u => exact parts u List.mem_cons_self
  | negation p | bind p _ _ | many p _ =>
    exact passes.bind (parts p.toValue List.mem_cons_self) fun _ => passes.ok _
  | choice ps =>
    have all := passes.mapM (f := fun p : Parser => inner p.toValue) fun p member =>
      parts p.toValue (List.mem_map_of_mem member)
    exact passes.bind all fun _ => passes.ok _
  | _ => exact passes.ok _

/-- What is the case of the texts of its parts is the case of the text of a value, if also of the
failure to show a name that is no text, where there is one; numbers of any size have texts. -/
theorem showWith {v : Value} (unlimited : results.runtime.digits = none)
    (named : ∀ shape mapping name, v = .parser (.node shape mapping (some name)) →
      (∃ cs, name = .text cs) ∨ C (.error (.error .wrongKind) : Except Stop (List Char)))
    (parts : ∀ u ∈ v.parts results, C (inner u)) : C (Value.showWith inner results v) := by
  cases v with
  | list vs | tuple vs => exact passes.bind (passes.mapM parts) fun _ => passes.ok _
  | derivation u r =>
    obtain ⟨first, second⟩ := List.forall_mem_cons.mp parts
    refine passes.bind first fun _ => passes.bind (second r List.mem_cons_self) fun _ => ?_
    exact passes.ok _
  | result address =>
    refine passes.bind (passes.mapM fun d member => ?_) fun _ => passes.ok _
    have row {u : Value} (here : u ∈ [d.value, d.remainder]) : C (inner u) :=
      parts u (List.mem_flatMap.mpr ⟨d, member, here⟩)
    refine passes.bind (row (by simp)) fun _ => passes.bind (row (by simp)) fun _ => ?_
    exact passes.ok _
  | parser p =>
    obtain ⟨shape, mapping, name⟩ := p
    cases name with
    | none => exact passes.showShape parts
    | some name =>
      rcases named shape mapping name rfl with ⟨cs, rfl⟩ | fails
      · exact passes.ok cs
      · cases name with
        | text cs => exact passes.ok cs
        | _ => exact fails
  | function f => cases f <;> exact passes.ok _
  | int n =>
    rw [Value.showWith, Value.showInt_of_digits_eq_none unlimited]
    exact passes.ok (intText n)
  | _ => exact passes.ok _

/-- Whatever depth there is to show a value: what is the case where the depth is used up, and of the
failure to show a name that is no text, is the case of its text. -/
theorem display {P : Value → Prop} (unlimited : results.runtime.digits = none)
    (out : C (.error .outOfFuel : Except Stop (List Char)))
    (named : ∀ shape mapping name, P (.parser (.node shape mapping (some name))) →
      (∃ cs, name = .text cs) ∨ C (.error (.error .wrongKind) : Except Stop (List Char)))
    (parts : ∀ v u, P v → results.IsPart u v → P u) (n : Nat) {v : Value} (holds : P v) :
    C (v.display results n) := by
  have here {v : Value} (holds : P v) (shape mapping name)
      (same : v = .parser (.node shape mapping (some name))) :=
    named shape mapping name (same ▸ holds)
  induction n generalizing v with
  | zero => exact passes.showWith unlimited (here holds) fun _ _ => out
  | succ n ih =>
    exact passes.showWith unlimited (here holds) fun u part => ih (parts v u holds part)

end Compositional

/-- Whether a computation has a value. -/
def Succeeds {α : Type} (x : Except Stop α) : Prop := ∃ a, x = .ok a

theorem Succeeds.compositional : Compositional @Succeeds where
  ok a := ⟨a, rfl⟩
  bind := by
    rintro _ _ _ f ⟨a, rfl⟩ second
    exact second a

/-- Whether a computation fails only with errors of a certain kind, if at all. -/
def FailsOnly (P : Error → Prop) {α : Type} (x : Except Stop α) : Prop :=
  ∀ e, x = .error (.error e) → P e

theorem FailsOnly.compositional (P : Error → Prop) : Compositional (@FailsOnly P) where
  ok _ := nofun
  bind := by
    rintro _ _ (stop | a) f first second
    · intro e fails
      cases fails
      exact first e rfl
    · exact second a

namespace Value

/-- That something cannot be shown in a message is because of a name that is no text. -/
theorem failsOnly_display (results : Results) (n : Nat) (v : Value) :
    FailsOnly (· = .wrongKind) (v.display results.unlimited n) := by
  refine (FailsOnly.compositional _).display (P := fun _ => True) rfl nofun
    (fun _ _ _ _ => .inr ?_) (fun _ _ _ _ => trivial) n trivial
  rintro _ ⟨⟩
  rfl

/-- Where all names are texts, everything can be shown in a message, given the depth. -/
theorem display_ne_error {b : Bounds} (texts : ∀ v, b.name v → ∃ cs, v = .text cs)
    {results : Results} (store : results.All (Within b)) (n : Nat) {v : Value} (within : v.Within b)
    (e : Error) : v.display results.unlimited n ≠ .error (.error e) := by
  have store : results.unlimited.All (Within b) := store
  have shows : FailsOnly (fun _ => False) (v.display results.unlimited n) :=
    (FailsOnly.compositional _).display (P := Within b) rfl nofun
      (fun _ _ _ within => .inl (texts _ within.2.2.1))
      (fun _ _ within => within.of_isPart store) n within
  exact shows e

/-! ## Texts that stay the same -/

section

variable {inner inner' : Value → Except Stop (List Char)} {results results' : Results}

theorem showShape_congr {shape : Shape} (same : ∀ u ∈ shape.parts, inner' u = inner u) :
    showShape inner' shape = showShape inner shape := by
  cases shape with
  | unit u =>
    have only := same u List.mem_cons_self
    cases u <;> simp only [showShape, only]
  | foreign u => exact same u List.mem_cons_self
  | negation p | bind p _ _ | many p _ =>
    have only := same p.toValue List.mem_cons_self
    simp only [showShape, only]
  | choice ps =>
    have all : ps.mapM (fun p => inner' p.toValue) = ps.mapM fun p => inner p.toValue :=
      Except.mapM_congr fun p member => same p.toValue (List.mem_map_of_mem member)
    simp only [showShape, all]
  | _ => rfl

theorem showWith_congr {v : Value} (same : ∀ u ∈ v.parts results, inner' u = inner u)
    (runtime : results'.runtime = results.runtime)
    (read : ∀ address, v = .result address → results'.read address = results.read address) :
    showWith inner' results' v = showWith inner results v := by
  cases v with
  | list vs | tuple vs => exact congrArg (· >>= _) (Except.mapM_congr same)
  | derivation u r =>
    obtain ⟨first, second⟩ := List.forall_mem_cons.mp same
    simp only [showWith, first, second r List.mem_cons_self]
  | result address =>
    simp only [showWith, read address rfl]
    refine congrArg (· >>= _) (Except.mapM_congr fun d member => ?_)
    have row {u : Value} (here : u ∈ [d.value, d.remainder]) : inner' u = inner u :=
      same u (List.mem_flatMap.mpr ⟨d, member, here⟩)
    rw [row (by simp), row (by simp)]
  | parser p =>
    obtain ⟨shape, mapping, name⟩ := p
    cases name with
    | none => exact showShape_congr same
    | some name => cases name <;> rfl
  | function f => cases f <;> rfl
  | int n => rw [showWith, showWith, runtime]
  | _ => rfl

end

/-- How a value is shown depends on nothing but the result lists that it refers to, and on what the
runtime decides. -/
theorem display_congr {b : Bounds} {results results' : Results}
    (runtime : results'.runtime = results.runtime)
    (same : ∀ address, b.result address → results'.read address = results.read address)
    (store : results.All (Within b)) (n : Nat) {v : Value} (within : v.Within b) :
    v.display results' n = v.display results n := by
  have read {v : Value} (within : v.Within b) (address) (here : v = .result address) :
      results'.read address = results.read address := by
    subst here
    exact same address within
  induction n generalizing v with
  | zero => exact showWith_congr (fun _ _ => rfl) runtime (read within)
  | succ n ih =>
    exact showWith_congr (fun u part => ih (within.of_isPart store part)) runtime (read within)

end Value

end GrammarKit
