import GrammarKit.Proofs.Comparison.Sides

/-! # What one result list holds is not looked at

If nothing in a store refers to a result list, but for the caller, then what this list holds does
not matter to evaluations from that store. So each of them is compared with those from another
store, in which the list holds something else. There may be more variables in the other store, which
lead to the list, as long as none of them is looked up: the evaluation from the first store raises
an error where one is.
-/

namespace GrammarKit

/-- The bounds of what does not refer to a result list. -/
def Bounds.avoiding (address : Nat) : Bounds :=
  ⟨fun other => other ≠ address, fun _ => True, fun _ => trivial⟩

/-- Whether a store is like another one in which nothing refers to a result list, but for what this
list holds and for further variables. -/
structure Store.Apart (address : Nat) (hidden : String → Prop) (s t : Store) : Prop where
  within : s.Within (.avoiding address)
  inside : address < s.results.size
  size : t.results.size = s.results.size
  agree : s.results.Agree (.avoiding address) t.results
  cells : t.cells = s.cells
  trace : t.trace = s.trace
  debug : t.debug = s.debug
  history : t.history = s.history
  visible : ∀ name, ¬hidden name → t.globals.lookup name = s.globals.lookup name
  absent : ∀ name, hidden name → s.globals.lookup name = none

namespace Store.Apart

variable {address : Nat} {hidden : String → Prop} {s t : Store}

/-- What leaves result lists, cells and variables as they are. -/
theorem same {s' t' : Store} (apart : s.Apart address hidden t)
    (first : s'.results = s.results ∧ s'.cells = s.cells ∧ s'.globals = s.globals)
    (second : t'.results = t.results ∧ t'.cells = t.cells ∧ t'.globals = t.globals)
    (trace : t'.trace = s'.trace) (debug : t'.debug = s'.debug)
    (history : t'.history = s'.history) : s'.Apart address hidden t' where
  within := apart.within.congr first.1 first.2.1 first.2.2
  inside := first.1 ▸ apart.inside
  size := by rw [first.1, second.1, apart.size]
  agree := by
    rw [first.1, second.1]
    exact apart.agree
  cells := by rw [first.2.1, second.2.1, apart.cells]
  trace := trace
  debug := debug
  history := history
  visible := by
    rw [first.2.2, second.2.2]
    exact apart.visible
  absent := by
    rw [first.2.2]
    exact apart.absent

theorem note (apart : s.Apart address hidden t) (cell : Nat) (event : CellEvent) :
    (s.note cell event).Apart address hidden (t.note cell event) :=
  apart.same ⟨rfl, rfl, rfl⟩ ⟨rfl, rfl, rfl⟩ apart.trace apart.debug
    (by simp only [Store.note, apart.history])

theorem push (apart : s.Apart address hidden t) {ds : List Derivation}
    (all : ∀ d ∈ ds, d.Within (.avoiding address)) :
    Apart address hidden { s with results := s.results.push ds }
      { t with results := t.results.push ds } :=
  { apart with
    within := apart.within.newResult all
    inside := by
      rw [Results.size_push]
      exact Nat.lt_succ_of_lt apart.inside
    size := by rw [Results.size_push, Results.size_push, apart.size]
    agree := ⟨apart.agree.runtime, fun other known => by
      rw [Results.read_push, Results.read_push, apart.size, apart.agree.read other known]⟩ }

theorem append (apart : s.Apart address hidden t) {other : Nat} {ds : List Derivation}
    (known : other ≠ address) (all : ∀ d ∈ ds, d.Within (.avoiding address)) :
    Apart address hidden
      { s with results := s.results.write other (s.results.read other ++ ds) }
      { t with results := t.results.write other (t.results.read other ++ ds) } :=
  { apart with
    within := apart.within.append known all
    inside := by
      rw [Results.size_write]
      exact apart.inside
    size := by rw [Results.size_write, Results.size_write, apart.size]
    agree := ⟨apart.agree.runtime, fun another known' => by
      rw [Results.read_write, Results.read_write, apart.size,
        apart.agree.read another known', apart.agree.read other known]⟩ }

theorem addCell (apart : s.Apart address hidden t) {factory : Option Value}
    (made : Value.OptionWithin (.avoiding address) factory) :
    (s.addCell factory).Apart address hidden (t.addCell factory) :=
  { apart with
    within := apart.within.addCell made
    cells := by simp only [Store.addCell, Store.note, apart.cells]
    history := by simp only [Store.addCell, Store.note, apart.cells, apart.history] }

theorem settle (apart : s.Apart address hidden t) (cell : Nat) {p : Parser}
    (parser : p.Within (.avoiding address)) :
    (s.settle cell p).Apart address hidden (t.settle cell p) := by
  have within : (s.settle cell p).Within (.avoiding address) := apart.within.settle parser
  unfold Store.settle at within ⊢
  rw [apart.cells]
  split
  · next inside =>
    rw [if_pos inside] at within
    exact { apart with
      within := within
      cells := rfl
      history := by simp only [Store.note, apart.history] }
  · exact apart

end Store.Apart

/-- A store in which nothing refers to a result list on the one side, and one like it on the other
side. An evaluation fails alone where it looks a hidden variable up. -/
def Sides.apart (address : Nat) (hidden : String → Prop) : Sides where
  bounds := .avoiding address
  Coupled s t := s.Apart address hidden t
  Later _ _ := True
  Excused e := ∃ name, e = .unbound name ∧ hidden name
  mayAppend := True
  name _ := trivial
  trans _ _ := trivial
  others _ _ := trivial
  pushed _ _ := trivial
  appended _ _ _ _ := trivial
  within apart := apart.within
  agree apart := apart.agree
  size apart := apart.size
  next apart := Nat.ne_of_gt apart.inside
  cells apart := apart.cells
  debug apart := apart.debug
  lookUp apart name := by
    by_cases unseen : hidden name
    · exact .inr ⟨apart.absent name unseen, name, rfl, unseen⟩
    · exact .inl (apart.visible name unseen)
  loud apart _ := apart.same ⟨rfl, rfl, rfl⟩ ⟨rfl, rfl, rfl⟩ apart.trace rfl apart.history
  record apart _ := apart.same ⟨rfl, rfl, rfl⟩ ⟨rfl, rfl, rfl⟩ (by rw [apart.trace]) apart.debug
    apart.history
  note apart cell event := apart.note cell event
  push apart _ all := apart.push all
  append _ _ _ apart _ _ known all := apart.append known all
  addCell apart _ made := apart.addCell made
  settle apart cell _ parser := apart.settle cell parser

end GrammarKit
