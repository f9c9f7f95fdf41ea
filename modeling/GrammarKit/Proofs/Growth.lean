import GrammarKit.Evaluation.Method
import GrammarKit.Proofs.Effects
import GrammarKit.Proofs.Store

/-! # Evaluations without side effects

An evaluation without side effects may record messages and hand out result lists and cells of its
own, so the store grows by it, but nothing that was there before is changed. What it comes to does
not depend on how the store has grown before. A result list is handed out at an address that does
depend on that, so of an evaluation that hands out one it is told which derivations are in it.
-/

namespace GrammarKit

/-- Whether `t` is `s` with more messages, more result lists or more cells. -/
def Store.Grows (s t : Store) : Prop :=
  ∃ trace, ∃ results : Array (List Derivation), ∃ cells history, t = { s with
    trace := trace, results := s.results ++ results, cells := s.cells ++ cells, history := history }

/-- Whether `t` is `s` with more result lists. -/
def Store.Lists (s t : Store) : Prop := 
  ∃ more : Array (List Derivation), t = { s with results := s.results ++ more }

/-- Whether a result list has been handed out at an address, with these derivations. -/
def Store.Holds (s : Store) (address : Nat) (ds : List Derivation) : Prop :=
  address < s.results.size ∧ s.results.read address = ds

variable {s t u : Store} {ds : List Derivation} {address : Nat}

namespace Store.Grows

theorem refl (s : Store) : s.Grows s :=
  ⟨s.trace, #[], #[], s.history, by rw [Results.append_empty, Array.append_empty]⟩

theorem trans (first : s.Grows t) (second : t.Grows u) : s.Grows u := by
  obtain ⟨_, results, cells, _, rfl⟩ := first
  obtain ⟨trace, results', cells', history, rfl⟩ := second
  exact ⟨trace, results ++ results', cells ++ cells', history,
    by rw [Results.append_append, Array.append_assoc]⟩

theorem debug (grows : s.Grows t) : t.debug = s.debug := by
  obtain ⟨_, _, _, _, rfl⟩ := grows
  rfl

theorem runtime (grows : s.Grows t) : t.results.runtime = s.results.runtime := by
  obtain ⟨_, _, _, _, rfl⟩ := grows
  rfl

/-- A definition that is there stays. -/
theorem definition {p : Parser} (grows : s.Grows t)
    (defined : (s.cellAt address).definition = some p) :
    (t.cellAt address).definition = some p := by
  obtain ⟨_, _, cells, _, rfl⟩ := grows
  have inside : address < s.cells.size := by
    refine Nat.lt_of_not_le fun beyond => ?_
    simp [Store.cellAt, Array.getElem?_eq_none beyond] at defined
  simpa [Store.cellAt, Array.getElem?_append_left inside] using defined

/-- What has been handed out stays as it is. -/
theorem holds (grows : s.Grows t) (holds : s.Holds address ds) : t.Holds address ds := by
  obtain ⟨_, more, _, _, rfl⟩ := grows
  obtain ⟨inside, rfl⟩ := holds
  refine ⟨?_, Results.read_append _ inside⟩
  rw [Results.size_append]
  omega

/-- One more message. -/
theorem record (s : Store) (entry : Answer) : s.Grows { s with trace := s.trace.push entry } :=
  ⟨_, #[], #[], s.history, by rw [Results.append_empty, Array.append_empty]⟩

/-- More result lists. -/
theorem of_lists (lists : s.Lists t) : s.Grows t := by
  obtain ⟨more, rfl⟩ := lists
  exact ⟨s.trace, more, #[], s.history, by rw [Array.append_empty]⟩

end Store.Grows

namespace Store.Lists

theorem refl (s : Store) : s.Lists s := ⟨#[], by rw [Results.append_empty]⟩

theorem trans (first : s.Lists t) (second : t.Lists u) : s.Lists u := by
  obtain ⟨more, rfl⟩ := first
  obtain ⟨more', rfl⟩ := second
  exact ⟨more ++ more', by rw [Results.append_append]⟩

/-- One more result list. -/
theorem newResult (s : Store) (ds : List Derivation) :
    s.Lists { s with results := s.results.push ds } :=
  ⟨#[ds], rfl⟩

end Store.Lists

/-- A new result list holds what it was made of. -/
theorem Store.holds_newResult (s : Store) (ds : List Derivation) :
    Store.Holds { s with results := s.results.push ds } s.results.size ds := by
  refine ⟨?_, ?_⟩
  · rw [Results.size_push]
    omega
  · rw [Results.read_push, if_pos rfl]

/-- Messages and new result lists as the only effects. -/
def Effects.growth (s : Store) : Effects where
  start := s.Grows
  leave := Store.Grows
  debug := s.debug
  runtime := s.results.runtime
  told _ grows := grows.debug
  ran _ grows := grows.runtime
  refl t _ := .refl t
  trans _ _ _ first second := first.trans second
  kept _ _ start leave := start.trans leave
  record t entry _ _ := .record t entry

/-- Whether a function comes to the end `r` on a value, without side effects. -/
def Value.ComesTo (s : Store) (f v : Value) (r : Except Error Value) : Prop :=
  (Effects.growth s).Settles (fun ev => ev.call f [v]) r

/-- From some depth on, the evaluation hands out a result list of these derivations or comes to an
error, without side effects. -/
def Store.HandsOut (s : Store) (m : Evaluator → Eval Value)
    (r : Except Error (List Derivation)) : Prop :=
  ∃ depth, ∀ n, depth ≤ n → ∀ t, s.Grows t → ∃ u address, t.Grows u ∧
    (∀ ds, r = .ok ds → u.Holds address ds) ∧
    m (evaluator n) t = (liftM (r.map fun _ => Value.result address) : Eval Value) u

namespace Store.HandsOut

variable {m m' : Evaluator → Eval Value} {r : Except Error (List Derivation)}

theorem congr (handsOut : s.HandsOut m r) (same : ∀ ev, m' ev = m ev) : s.HandsOut m' r := by
  obtain rfl : m' = m := funext same
  exact handsOut

/-- Derivations are handed out as a new result list. -/
theorem of_settles {parse : Evaluator → Eval (List Derivation)}
    (settles : (Effects.growth s).Settles parse r) :
    s.HandsOut (fun ev => parse ev >>= newResult) r := by
  obtain ⟨depth, ends⟩ := settles
  refine ⟨depth, fun n deep t start => ?_⟩
  obtain ⟨u, grows, here⟩ := ends n deep t start
  cases r with
  | ok ds =>
    refine ⟨{ u with results := u.results.push ds }, u.results.size, ?_, ?_, ?_⟩
    · exact grows.trans (.of_lists (.newResult u ds))
    · rintro _ ⟨⟩
      exact u.holds_newResult ds
    · exact (Eval.bind_of_eq_ok here _).trans rfl
  | error e => exact ⟨u, 0, grows, nofun, Eval.bind_of_eq_error here _⟩

/-- What has no side effects has none later on. -/
theorem later (handsOut : s.HandsOut m r) (grows : s.Grows t) : t.HandsOut m r := by
  obtain ⟨depth, ends⟩ := handsOut
  exact ⟨depth, fun n deep u start => ends n deep u (grows.trans start)⟩

end Store.HandsOut

/-- Derivations with other values. -/
def withValues (f : Value → Value) (ds : List Derivation) : List Derivation :=
  ds.map fun d => ⟨f d.value, d.remainder⟩

namespace Evaluator

variable {f : Value} {k : Value → Value}

/-- The values of a result list are mapped one after the other, whatever else is handed out
meanwhile. -/
theorem mapResult_ends (rest : List Derivation)
    (given : ∀ d ∈ rest, f.ComesTo s d.value (.ok (k d.value))) :
    ∃ depth, ∀ n, depth ≤ n → ∀ t address ds, s.Grows t → t.Holds address ds → ∀ fuel i,
      rest.length < fuel → ds.drop i = rest →
        ∃ u, t.Grows u ∧
          (evaluator n).mapResult f address fuel i t = .ok (withValues k rest) u := by
  induction rest with
  | nil =>
    refine ⟨0, fun n _ t address ds _ holds fuel i enough from_i => ?_⟩
    obtain ⟨fuel, rfl⟩ : ∃ m, fuel = m + 1 := ⟨fuel - 1, by omega⟩
    refine ⟨t, .refl t, ?_⟩
    have none : (t.results.read address)[i]? = none := by
      rw [holds.2, ← List.head?_drop, from_i]
      rfl
    rw [mapResult, Eval.readResults_bind, none]
    rfl
  | cons d rest ih =>
    obtain ⟨depth, ends⟩ := given d List.mem_cons_self
    obtain ⟨depth', others⟩ := ih fun other member => given other (List.mem_cons_of_mem _ member)
    refine ⟨max depth depth', fun n deep t address ds start holds fuel i enough from_i => ?_⟩
    obtain ⟨fuel, rfl⟩ : ∃ m, fuel = m + 1 := ⟨fuel - 1, by omega⟩
    have here : (t.results.read address)[i]? = some d := by
      rw [holds.2, ← List.head?_drop, from_i]
      rfl
    have from_next : ds.drop (i + 1) = rest := by
      rw [← List.tail_drop, from_i]
      rfl
    obtain ⟨u, grows, called⟩ := ends n (by omega) t start
    obtain ⟨u', grows', mapped⟩ := others n (by omega) u address ds
      (start.trans grows) (grows.holds holds) fuel (i + 1) (Nat.lt_of_succ_lt_succ enough) from_next
    refine ⟨u', grows.trans grows', ?_⟩
    rw [mapResult, Eval.readResults_bind, here]
    exact (Eval.bind_of_eq_ok called _).trans ((Eval.bind_of_eq_ok mapped _).trans rfl)

end Evaluator

/-- Mapping the values of a result list that is handed out. -/
theorem Store.HandsOut.mapValues {m : Evaluator → Eval Value} {f : Value} {k : Value → Value}
    {r : Except Error (List Derivation)} (handsOut : s.HandsOut m r)
    (given : ∀ ds, r = .ok ds → ∀ d ∈ ds, f.ComesTo s d.value (.ok (k d.value))) :
    s.HandsOut (fun ev => do ev.applyMethod .mapValues [← m ev, f]) (r.map (withValues k)) := by
  obtain ⟨depth, ends⟩ := handsOut
  cases r with
  | ok ds =>
    obtain ⟨depth', mapped⟩ := Evaluator.mapResult_ends ds (given ds rfl)
    refine ⟨max (max depth depth') (ds.length + 2), fun n deep t start => ?_⟩
    obtain ⟨u, address, grows, holds, here⟩ := ends n (by omega) t start
    have held := holds ds rfl
    have enough : ds.length < (evaluator n).fuel := by
      obtain ⟨n, rfl⟩ : ∃ m, n = m + 1 := ⟨n - 1, by omega⟩
      change ds.length < n
      omega
    obtain ⟨u', grows', mapped⟩ := mapped n (by omega) u address ds
      (start.trans grows) held (evaluator n).fuel 0 enough rfl
    let found := withValues k ds
    refine ⟨{ u' with results := u'.results.push found }, u'.results.size, ?_, ?_, ?_⟩
    · exact grows.trans (grows'.trans (.of_lists (.newResult u' found)))
    · rintro _ ⟨⟩
      exact u'.holds_newResult found
    · refine (Eval.bind_of_eq_ok here _).trans ?_
      change ((evaluator n).mapResult f address (evaluator n).fuel 0 >>= Store.newResult) u = _
      rw [Eval.bind_of_eq_ok mapped]
      rfl
  | error e =>
    refine ⟨depth, fun n deep t start => ?_⟩
    obtain ⟨u, address, grows, holds, here⟩ := ends n deep t start
    exact ⟨u, address, grows, nofun, Eval.bind_of_eq_error here _⟩

end GrammarKit
