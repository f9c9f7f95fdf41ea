import GrammarKit.Store

/-! # Reading what was written

A result list or a cell is read as it was written last, and writing one leaves the others alone.
-/

namespace GrammarKit

namespace Results

variable (results : Results) (ds : List Derivation) (more : Array (List Derivation))
  {address other : Nat}

/-- Result lists are the same if the same is read at every address. -/
theorem ext {results later : Results} (lists : later.lists = results.lists)
    (runtime : later.runtime = results.runtime) : later = results := by
  cases results
  cases later
  cases lists
  cases runtime
  rfl

@[simp] theorem runtime_push : (results.push ds).runtime = results.runtime := rfl

@[simp] theorem runtime_write (address : Nat) :
    (results.write address ds).runtime = results.runtime := rfl

@[simp] theorem runtime_append : (results ++ more).runtime = results.runtime := rfl

@[simp] theorem size_push : (results.push ds).size = results.size + 1 := Array.size_push _

@[simp] theorem size_write (address : Nat) : (results.write address ds).size = results.size :=
  Array.size_setIfInBounds

@[simp] theorem size_append : (results ++ more).size = results.size + more.size :=
  Array.size_append

@[simp] theorem size_unlimited : results.unlimited.size = results.size := rfl

@[simp] theorem read_unlimited (address : Nat) :
    results.unlimited.read address = results.read address := rfl

/-- Handing out a new result list leaves the old ones as they are. -/
theorem read_push (address : Nat) :
    (results.push ds).read address =
      if address = results.size then ds else results.read address := by
  simp only [read, push, size, Array.getD_eq_getD_getElem?, Array.getElem?_push]
  split <;> rfl

/-- Nothing is there before it is handed out. -/
theorem read_eq_nil {results : Results} (beyond : results.size ≤ address) :
    results.read address = [] := by
  rw [read, Array.getD_eq_getD_getElem?, Array.getElem?_eq_none beyond, Option.getD_none]

/-- Replacing one result list leaves the others as they are. -/
theorem read_write (address other : Nat) :
    (results.write address ds).read other =
      if address = other ∧ other < results.size then ds else results.read other := by
  simp only [read, write, size, Array.getD_eq_getD_getElem?, Array.getElem?_setIfInBounds]
  by_cases same : address = other
  · subst same
    by_cases inside : address < results.lists.size
    · simp [inside]
    · simp [inside]
  · simp [same]

/-- Where there is no result list, none is replaced. -/
theorem write_of_size_le {results : Results} (beyond : results.size ≤ address) :
    results.write address ds = results :=
  ext (Array.setIfInBounds_eq_of_size_le beyond) rfl

/-- What is added leaves the old ones as they are. -/
theorem read_append {results : Results} (inside : address < results.size) :
    (results ++ more).read address = results.read address := by
  change (results.lists ++ more).getD address [] = _
  rw [read, Array.getD_eq_getD_getElem?, Array.getD_eq_getD_getElem?,
    Array.getElem?_append_left inside]

theorem append_append (more' : Array (List Derivation)) :
    results ++ more ++ more' = results ++ (more ++ more') :=
  ext (Array.append_assoc ..) rfl

theorem append_empty : results ++ (#[] : Array (List Derivation)) = results :=
  ext Array.append_empty rfl

end Results

/-- Handing out a new cell leaves the old ones as they are. -/
theorem Store.cellAt_addCell (s : Store) (factory : Option Value) (address : Nat) :
    (s.addCell factory).cellAt address =
      if address = s.cells.size then ⟨factory, none⟩ else s.cellAt address := by
  simp only [Store.addCell, Store.note, Store.cellAt, Array.getD_eq_getD_getElem?,
    Array.getElem?_push]
  split <;> rfl

/-- There is a cell where something is found in one. -/
theorem Store.lt_size_of_factory {s : Store} {f : Value} {address : Nat}
    (here : (s.cellAt address).factory = some f) : address < s.cells.size := by
  refine Nat.lt_of_not_le fun beyond => ?_
  rw [cellAt, Array.getD_eq_getD_getElem?, Array.getElem?_eq_none beyond] at here
  cases here

/-- A note about a cell leaves the cells as they are. -/
@[simp] theorem Store.cellAt_note (s : Store) (address other : Nat) (event : CellEvent) :
    (s.note address event).cellAt other = s.cellAt other := rfl

/-- Defining one cell leaves the others as they are, and every factory. -/
theorem Store.cellAt_settle (s : Store) (address other : Nat) (p : Parser) :
    (s.settle address p).cellAt other =
      if address = other ∧ other < s.cells.size then { s.cellAt other with definition := some p }
      else s.cellAt other := by
  unfold Store.settle
  by_cases inside : address < s.cells.size
  · rw [if_pos inside, cellAt_note]
    simp only [Store.cellAt, Array.getD_eq_getD_getElem?, Array.getElem?_modify]
    by_cases same : address = other
    · subst same
      simp [inside]
    · simp [same]
  · rw [if_neg inside, if_neg]
    rintro ⟨rfl, there⟩
    exact inside there

@[simp] theorem Store.results_settle (s : Store) (address : Nat) (p : Parser) :
    (s.settle address p).results = s.results := by
  unfold Store.settle
  split <;> rfl

@[simp] theorem Store.globals_settle (s : Store) (address : Nat) (p : Parser) :
    (s.settle address p).globals = s.globals := by
  unfold Store.settle
  split <;> rfl

@[simp] theorem Store.trace_settle (s : Store) (address : Nat) (p : Parser) :
    (s.settle address p).trace = s.trace := by
  unfold Store.settle
  split <;> rfl

@[simp] theorem Store.debug_settle (s : Store) (address : Nat) (p : Parser) :
    (s.settle address p).debug = s.debug := by
  unfold Store.settle
  split <;> rfl

/-- What becomes of the cells depends on nothing else. -/
theorem Store.cells_settle_congr {s t : Store} (same : t.cells = s.cells) (address : Nat)
    (p : Parser) : (t.settle address p).cells = (s.settle address p).cells := by
  unfold Store.settle
  rw [same]
  split
  · rfl
  · exact same

@[simp] theorem Store.size_cells_settle (s : Store) (address : Nat) (p : Parser) :
    (s.settle address p).cells.size = s.cells.size := by
  unfold Store.settle
  split
  · exact Array.size_modify ..
  · rfl

end GrammarKit
