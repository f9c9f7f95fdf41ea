import GrammarKit.Proofs.Comparison.Interpreter
import GrammarKit.Proofs.Comparison.Sound
import GrammarKit.Proofs.Use

/-! # What becomes of cells in every evaluation

What is true of the cells of a store, and stays true when a cell is added or defined, is maintained
by every evaluation that ends with a value. So a cell that has a definition goes on having one.
-/

namespace GrammarKit

open Eval (Maintains)

/-- Whether a property of stores is about the cells, and stays true of them whatever is added. -/
structure Store.Persists (I : Store → Prop) : Prop where
  congr : ∀ {s t}, I s → t.cells = s.cells → I t
  addCell : ∀ {s} factory, I s → I (s.addCell factory)
  settle : ∀ {s} address p, I s → I (s.settle address p)

theorem Store.Persists.both {I J : Store → Prop} (persists : Store.Persists I)
    (persists' : Store.Persists J) : Store.Persists fun s => I s ∧ J s where
  congr holds same := ⟨persists.congr holds.1 same, persists'.congr holds.2 same⟩
  addCell factory holds := ⟨persists.addCell factory holds.1, persists'.addCell factory holds.2⟩
  settle address p holds := ⟨persists.settle address p holds.1, persists'.settle address p holds.2⟩

theorem Store.Persists.quiet {I stores : Store → Prop} (persists : Store.Persists I)
    (quiet : Store.Quiet stores) : Store.Quiet fun s => stores s ∧ I s :=
  fun s trace holds => ⟨quiet s trace holds.1, persists.congr holds.2 rfl⟩

/-- What is maintained, as a comparison. -/
def maintaining (I : Store → Prop) : Comparison where
  World := Unit
  bounds _ := .unlimited
  Later _ _ := True
  holds _ x _ Q := Maintains I x (Q ())
  mayAppend := True
  mayTrace := True
  mayName _ := True

namespace maintaining

variable {I : Store → Prop} {α : Type} {Q : α → Prop} {x : Eval α}

/-- What an evaluation reads off the store and makes of it. -/
theorem step {f : Store → α} {g : Store → Store} (is : ∀ s, x s = .ok (f s) (g s))
    (kept : ∀ s, I s → I (g s)) (holds : ∀ s, Q (f s)) : Maintains I x Q := by
  intro s a t start success
  rw [is] at success
  cases success
  exact ⟨kept s start, holds s⟩

variable (persists : Store.Persists I)

include persists

theorem withDebug (inside : Maintains I x Q) : Maintains I (Store.withDebug x) Q := by
  intro s a t start success
  unfold Store.withDebug at success
  cases found : x { s with debug := true } with
  | ok b u =>
    simp only [found] at success
    cases success
    have before : I { s with debug := true } := persists.congr start rfl
    obtain ⟨after, holds⟩ := inside _ _ _ before found
    exact ⟨persists.congr after rfl, holds⟩
  | error stop u =>
    simp only [found] at success
    cases success

theorem supply {address : Nat} (called : Maintains I x Q) :
    Maintains I (Store.supply address x) Q := by
  intro s a t start success
  unfold Store.supply at success
  cases found : x (s.note address .called) with
  | ok b u =>
    simp only [found] at success
    cases success
    have before : I (s.note address .called) := persists.congr start rfl
    obtain ⟨after, holds⟩ := called _ _ _ before found
    exact ⟨persists.congr after rfl, holds⟩
  | error stop u =>
    simp only [found] at success
    cases success

theorem resolve {ev : Evaluator} {address : Nat} {owner : Value}
    (calls : ∀ f (arguments : List Value), Maintains I (ev.call f arguments) fun _ => True) :
    Maintains I (ev.resolve address owner) fun _ => True := by
  have quiet : Store.Quiet I := fun s trace start => persists.congr start rfl
  have read : Maintains I (Store.readCell address) fun _ => True :=
    step (g := id) (fun _ => rfl) (fun _ start => start) fun _ => trivial
  refine read.bind fun cell _ => ?_
  cases cell.definition with
  | some q => exact .pure trivial
  | none =>
    cases cell.factory with
    | none => exact .raise _
    | some factory =>
      refine (supply persists (calls factory _)).bind fun v _ => ?_
      have settled : Maintains I (Store.defineCell address (Parser.asParser v)) fun _ => True :=
        .update (fun _ => persists.settle address _) trivial
      have noted : Maintains I (modify (Store.note address .told) : Eval Unit) fun _ => True :=
        .update (fun _ start => persists.congr start rfl) trivial
      have told : Maintains I (ev.logResolved address owner) fun _ => True :=
        (Evaluator.maintains_describe owner).bind fun _ _ =>
          (Evaluator.maintains_log quiet _).bind fun _ _ => noted
      refine settled.bind fun _ _ => (Maintains.get fun _ _ => trivial).bind fun _ _ => ?_
      exact .ite (fun _ => told.bind fun _ _ => .pure trivial) fun _ => .pure trivial

theorem lawful : (maintaining I).Lawful where
  refl _ := trivial
  trans _ _ := trivial
  wider _ := ⟨fun _ _ => trivial, fun _ _ => trivial⟩
  name _ _ _ := trivial
  deepen _ _ _ holds := holds
  pure holds := .pure holds
  bind first second := first.bind fun a holds => second () a trivial holds
  raise e := .raise e
  outOfFuel := .throw _
  withDebug inside := withDebug persists inside
  reading next _ := Maintains.readResults.bind fun results _ =>
    next results fun _ _ _ _ => Value.within_unlimited _
  newResult _ := step (fun _ => rfl) (fun _ start => persists.congr start rfl) fun _ =>
    Value.within_unlimited _
  append _ _ _ _ := step (f := fun _ => ()) (fun _ => rfl)
    (fun _ start => persists.congr start rfl) fun _ => ⟨rfl, trivial⟩
  newCell _ := step (fun _ => rfl) (fun _ => persists.addCell _) fun _ => ⟨rfl, trivial⟩
  readCell := step (g := id) (fun _ => rfl) (fun _ start => start) fun _ =>
    ⟨rfl, fun _ _ => Parser.within_unlimited _⟩
  define {_ address v} _ := by
    intro s a t start success
    rw [Evaluator.define_apply] at success
    split at success
    · cases success
    · cases success
      exact ⟨persists.settle address _ start, rfl, trivial⟩
  lookUp {_ name} := by
    intro s v t start success
    rw [Evaluator.lookUp_nil] at success
    cases found : s.globals.lookup name with
    | none =>
      rw [found] at success
      cases success
    | some w =>
      rw [found] at success
      cases success
      exact ⟨start, rfl, Value.within_unlimited _⟩
  record _ := step (f := fun _ => ()) (fun _ => rfl) (fun _ start => persists.congr start rfl)
    fun _ => ⟨rfl, trivial⟩
  snapshot _ _ := (Maintains.get fun _ _ => trivial).bind fun _ _ => .liftStop fun _ _ =>
    ⟨rfl, trivial⟩
  resolve {_ ev _ address owner} tracks _ := by
    have resolved : Maintains I (ev.resolve address owner) fun _ => True :=
      resolve persists fun f arguments => (tracks.call () f arguments (Value.within_unlimited f)
        fun _ _ => Value.within_unlimited _).mono fun _ _ => trivial
    exact resolved.mono fun _ _ => Parser.within_unlimited _

theorem uses : (maintaining I).Uses := fun _ _ _ produced =>
  Evaluator.maintains_use (fun _ _ start => persists.congr start rfl) (produced () trivial)

/-- Every evaluator maintains what persists. -/
theorem tracks_evaluator (n : Nat) : (maintaining I).Tracks (evaluator n) fun m => evaluator m :=
  (lawful persists).tracks_evaluator (uses persists) trivial trivial (fun _ => trivial) n

end maintaining

theorem Eval.Maintains.both {α : Type} {I J : Store → Prop} {Q : α → Prop} {x : Eval α}
    (maintains : Maintains I x Q) (maintains' : Maintains J x fun _ => True) :
    Maintains (fun s => I s ∧ J s) x Q := by
  intro s a t start ran
  obtain ⟨after, holds⟩ := maintains s a t start.1 ran
  exact ⟨⟨after, (maintains' s a t start.2 ran).1⟩, holds⟩

namespace Store.Persists

variable {I : Store → Prop} (persists : Store.Persists I)

include persists

theorem call (n : Nat) (f : Value) (arguments : List Value) :
    Maintains I ((evaluator n).call f arguments) fun _ => True :=
  ((maintaining.tracks_evaluator persists n).call () f arguments (Value.within_unlimited f)
    fun _ _ => Value.within_unlimited _).mono fun _ _ => trivial

theorem process (n : Nat) (p : Parser) (input : Value) :
    Maintains I ((evaluator n).process p input) fun _ => True := by
  have processed := (maintaining.lawful persists).process (w := ())
    (maintaining.tracks_evaluator persists n) (Parser.within_unlimited p)
    (Value.within_unlimited input)
  exact processed.mono fun _ _ => trivial

end Store.Persists

/-- Whether the definition of a parser is there, should it be lazy. -/
def Parser.IsDefined (s : Store) (p : Parser) : Prop :=
  ∀ address, p.shape = .lazy address → ∃ q, (s.cellAt address).definition = some q

/-- A definition that is there is not taken away again. -/
theorem Parser.persists_isDefined (p : Parser) : Store.Persists fun s => p.IsDefined s where
  congr defined same address lazy := by
    rw [Store.cellAt, same]
    exact defined address lazy
  addCell {s} factory defined address lazy := by
    obtain ⟨q, definition⟩ := defined address lazy
    rw [Store.cellAt_addCell]
    split
    · next beyond =>
      rw [beyond, Store.cellAt, Array.getD_eq_getD_getElem?, Array.getElem?_eq_none (Nat.le_refl _)]
        at definition
      cases definition
    · exact ⟨q, definition⟩
  settle address q defined other lazy := by
    rw [Store.cellAt_settle]
    split
    · exact ⟨q, rfl⟩
    · exact defined other lazy

end GrammarKit
