import GrammarKit.Proofs.Shown
import GrammarKit.Proofs.Use

/-! # Evaluations that come to an end

Evaluations are judged by what they may do to the store, their `Effects`: debug messages at least.
Within its effects an evaluation settles if from some depth on it comes to the same end, a value or
an error, from every store that it may start from. Deeper evaluators then make no difference, and a
sequence settles where its parts do. A use of a parser settles where the parser has produced its
derivations, as long as what the messages are about can be shown.
-/

namespace GrammarKit

/-- From which stores evaluations start, and what they may make of them, which includes debug
messages, if these are recorded. -/
structure Effects where
  start : Store → Prop
  leave : Store → Store → Prop
  debug : Bool
  runtime : Runtime
  told : ∀ s, start s → s.debug = debug
  ran : ∀ s, start s → s.results.runtime = runtime
  refl : ∀ s, start s → leave s s
  trans : ∀ s t u, leave s t → leave t u → leave s u
  kept : ∀ s t, start s → leave s t → start t
  record : ∀ s entry, start s → debug = true → leave s { s with trace := s.trace.push entry }

namespace Effects

/-- Debug messages as the only effects. -/
def messages (s : Store) : Effects where
  start := s.Logs
  leave _ t := s.Logs t
  debug := s.debug
  runtime := s.results.runtime
  told _ logs := logs.debug
  ran _ logs := congrArg Results.runtime logs.results
  refl _ logs := logs
  trans _ _ _ _ logs := logs
  kept _ _ _ logs := logs
  record _ entry logs debug := logs.record debug entry

/-- From some depth on, the evaluation agrees with a computation that has no other effects. -/
def Settles {α : Type} (b : Effects) (m : Evaluator → Eval α) (r : Except Error α) : Prop :=
  ∃ depth, ∀ n, depth ≤ n → ∀ s, b.start s →
    ∃ t, b.leave s t ∧ m (evaluator n) s = (liftM r : Eval α) t

/-- Whether a value has a text from some depth on, if messages are recorded. -/
def Shows (b : Effects) (v : Value) : Prop :=
  b.debug = true → ∃ depth, ∀ n, depth ≤ n → ∀ s, b.start s →
    ∃ text, (evaluator n).describe v s = .ok text s

namespace Settles

variable {α β : Type} {b : Effects} {m m' : Evaluator → Eval α} {k : Evaluator → α → Eval β}
  {r : Except Error α}

theorem lift (r : Except Error α) : b.Settles (fun _ => liftM r) r :=
  ⟨0, fun _ _ s start => ⟨s, b.refl s start, rfl⟩⟩

/-- An evaluation that has no effects from some depth on. -/
theorem of_deep (depth : Nat)
    (ends : ∀ n s, m (evaluator (n + depth)) s = (liftM r : Eval α) s) : b.Settles m r := by
  refine ⟨depth, fun n deep s start => ⟨s, b.refl s start, ?_⟩⟩
  obtain ⟨n, rfl⟩ : ∃ k, n = k + depth := ⟨n - depth, by omega⟩
  exact ends n s

/-- An evaluation that goes on like one that settles, in every store that a first part leaves. -/
theorem after {a : α} {r : Except Error β} {rest whole : Evaluator → Eval β}
    (first : b.Settles m (.ok a)) (second : b.Settles rest r)
    (joined : ∀ n s t, b.start t → m (evaluator n) s = .ok a t →
      whole (evaluator n) s = rest (evaluator n) t) : b.Settles whole r := by
  obtain ⟨depth, first⟩ := first
  obtain ⟨depth', second⟩ := second
  refine ⟨max depth depth', fun n deep s start => ?_⟩
  obtain ⟨t, leave, here⟩ := first n (by omega) s start
  have between := b.kept s t start leave
  obtain ⟨u, leave', there⟩ := second n (by omega) t between
  exact ⟨u, b.trans s t u leave leave', (joined n s t between here).trans there⟩

/-- A sequence settles where its second part does, after the value of the first one. -/
theorem bind {a : α} {r : Except Error β} (first : b.Settles m (.ok a))
    (second : b.Settles (fun ev => k ev a) r) : b.Settles (fun ev => m ev >>= k ev) r :=
  first.after second fun _ _ _ _ here => Eval.bind_of_eq_ok here _

/-- An error ends the sequence. -/
theorem error_bind {e : Error} (first : b.Settles m (.error e)) :
    b.Settles (fun ev => m ev >>= k ev) (.error e) := by
  obtain ⟨depth, first⟩ := first
  refine ⟨depth, fun n deep s start => ?_⟩
  obtain ⟨t, leave, here⟩ := first n deep s start
  exact ⟨t, leave, Eval.bind_of_eq_error here _⟩

/-- Either the first part has a value, where the sequence settles with its second part, or the
sequence ends with the error of the first. -/
theorem bind_all {x : Except Error α} {f : α → Except Error β} (first : b.Settles m x)
    (second : ∀ a, x = .ok a → b.Settles (fun ev => k ev a) (f a)) :
    b.Settles (fun ev => m ev >>= k ev) (x >>= f) := by
  cases x with
  | ok a => exact first.bind (second a rfl)
  | error e => exact first.error_bind

/-- An evaluation that agrees with one that settles. -/
theorem congr (settles : b.Settles m r)
    (same : ∀ n s, b.start s → m' (evaluator n) s = m (evaluator n) s) : b.Settles m' r := by
  obtain ⟨depth, ends⟩ := settles
  exact ⟨depth, fun n deep s start => (same n s start).symm ▸ ends n deep s start⟩

/-- An evaluation that depends on whether messages are recorded. -/
theorem ite_debug (yes : b.debug = true → b.Settles m r) (no : b.debug = false → b.Settles m' r) :
    b.Settles (fun ev => do if (← get).debug then m ev else m' ev) r := by
  have chosen : b.Settles (fun ev => if b.debug = true then m ev else m' ev) r := by
    cases debug : b.debug with
    | true => exact yes debug
    | false => exact no debug
  refine chosen.congr fun n s start => ?_
  rw [← b.told s start]
  rfl

/-- The evaluators that an evaluator uses are those of the depth before. -/
theorem deeper (settles : b.Settles m r)
    (next : ∀ n, m' (evaluator (n + 1)) = m (evaluator n)) : b.Settles m' r := by
  obtain ⟨depth, ends⟩ := settles
  refine ⟨depth + 1, fun n deep s start => ?_⟩
  obtain ⟨n, rfl⟩ : ∃ k, n = k + 1 := ⟨n - 1, by omega⟩
  rw [next]
  exact ends n (by omega) s start

/-- What an evaluation settles at is unique, if there is a store to start from. -/
theorem unique {r' : Except Error α} {s : Store} (start : b.start s) (settles : b.Settles m r)
    (settles' : b.Settles m r') : r = r' := by
  obtain ⟨depth, ends⟩ := settles
  obtain ⟨depth', ends'⟩ := settles'
  obtain ⟨_, _, here⟩ := ends (max depth depth') (by omega) s start
  obtain ⟨_, _, here'⟩ := ends' (max depth depth') (by omega) s start
  have same := here.symm.trans here'
  cases r with
  | ok a =>
    cases r' with
    | ok b =>
      cases same
      rfl
    | error e => cases same
  | error e =>
    cases r' with
    | ok b => cases same
    | error e =>
      cases same
      rfl

end Settles

/-- What has a text whatever the result lists are. -/
theorem Shows.of_display {b : Effects} {v : Value}
    (shows : ∀ results : Results, ∀ fuel, ∃ text, v.display results.unlimited fuel = .ok text) :
    b.Shows v := by
  refine fun _ => ⟨0, fun n _ s _ => ?_⟩
  obtain ⟨text, shows⟩ := shows s.results (evaluator n).fuel
  exact ⟨text, Evaluator.describe_eq_ok_iff.mpr ⟨shows, rfl⟩⟩

/-- What can be shown has a text wherever messages are recorded. -/
theorem Shows.texts {b : Effects} {v : Value} (shown : b.Shows v) :
    ∃ depth, ∀ n, depth ≤ n → ∀ s, b.start s → s.debug = true →
      ∃ text, v.display s.results.unlimited (evaluator n).fuel = .ok text := by
  by_cases debug : b.debug = true
  · obtain ⟨depth, texts⟩ := shown debug
    refine ⟨depth, fun n deep s start _ => ?_⟩
    obtain ⟨text, shows⟩ := texts n deep s start
    exact ⟨text, (Evaluator.describe_eq_ok_iff.mp shows).1⟩
  · exact ⟨0, fun n _ s start told => absurd ((b.told s start).symm.trans told) debug⟩

/-! ## Uses of a parser -/

variable {b : Effects} {p : Parser} {input : Value} {r : Except Error (List Derivation)}

theorem settles_logTrying (debug : b.debug = true) (shown : b.Shows (.parser p))
    (read : b.Shows input) : b.Settles (fun ev => ev.logTrying p input) (.ok ()) := by
  obtain ⟨depth, texts⟩ := shown debug
  obtain ⟨depth', texts'⟩ := read debug
  refine ⟨max depth depth', fun n deep s start => ?_⟩
  obtain ⟨text, shows⟩ := texts n (by omega) s start
  obtain ⟨text', shows'⟩ := texts' n (by omega) s start
  let message := "trying ".toList ++ text ++ " on ".toList ++ text'.take 40
  refine ⟨_, b.record s (.text message) start debug, ?_⟩
  change ((evaluator n).logTrying p input) s = _
  rw [Evaluator.logTrying, Eval.bind_of_eq_ok shows, Eval.bind_of_eq_ok shows']
  rfl

theorem settles_logProduced (debug : b.debug = true) (shown : b.Shows (.parser p))
    (count : Nat) : b.Settles (fun ev => ev.logProduced p count) (.ok ()) := by
  obtain ⟨depth, texts⟩ := shown debug
  refine ⟨depth, fun n deep s start => ?_⟩
  obtain ⟨text, shows⟩ := texts n deep s start
  let message := text ++ " produced ".toList ++ natText count ++ " derivation(s)".toList
  refine ⟨_, b.record s (.text message) start debug, ?_⟩
  change ((evaluator n).logProduced p count) s = _
  rw [Evaluator.logProduced, Eval.bind_of_eq_ok shows]
  rfl

/-- The messages around a use of a parser change nothing about what it produces. -/
theorem settles_use (actual : p.isForeign = false) (shown : b.Shows (.parser p))
    (read : b.Shows input) (produced : b.Settles (fun ev => ev.produce p input) r) :
    b.Settles (fun ev => ev.use p input) r := by
  have told (debug : b.debug = true) : b.Settles (fun ev => do
      ev.logTrying p input
      let found ← ev.produce p input
      ev.logProduced p found.length
      return found) r := by
    have counted (found : List Derivation) : b.Settles (fun ev => do
        ev.logProduced p found.length
        return found) (.ok found) :=
      (settles_logProduced debug shown found.length).bind (Settles.lift (.ok found))
    have whole := produced.bind_all fun found _ => counted found
    rw [show r >>= Except.ok = r from bind_pure r] at whole
    exact (settles_logTrying debug shown read).bind whole
  refine (Settles.ite_debug told fun _ => produced).congr fun n s start => ?_
  rw [Evaluator.use, actual]
  rfl

end Effects

end GrammarKit
