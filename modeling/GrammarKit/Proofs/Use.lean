import GrammarKit.Evaluation.Interpreter
import GrammarKit.Proofs.Eval

/-! # Uses of a parser

To use a parser is to process the input and to pass the values on to the mapping. The debug
messages around that change the trace and nothing else, so an invariant that does not speak of the
trace is maintained by a use as soon as it is by what is used. A use of a lazy parser is one of its
definition, which is there or made by its factory.
-/

namespace GrammarKit

/-- Whether an invariant of the store is independent of what is traced. -/
def Store.Quiet (I : Store → Prop) : Prop := ∀ s trace, I s → I { s with trace := trace }

namespace Evaluator

open Eval

variable {ev : Evaluator} {I : Store → Prop} {Q : List Derivation → Prop}

/-- To show a value is to read the result lists and nothing else. -/
theorem describe_eq_ok_iff {v : Value} {s t : Store} {text : List Char} :
    ev.describe v s = .ok text t ↔ v.display s.results.unlimited ev.fuel = .ok text ∧ s = t := by
  rw [describe, readResults_bind, liftStop_eq_ok_iff]

theorem maintains_describe (v : Value) : Maintains I (ev.describe v) fun _ => True :=
  Maintains.readResults.bind fun _ _ => Maintains.liftStop fun _ _ => trivial

theorem maintains_log (quiet : Store.Quiet I) (message : List Char) :
    Maintains I (log message) fun _ => True :=
  Maintains.update (fun s start => quiet s _ start) trivial

theorem maintains_logTrying (quiet : Store.Quiet I) (p : Parser) (input : Value) :
    Maintains I (ev.logTrying p input) fun _ => True :=
  (maintains_describe _).bind fun _ _ =>
    (maintains_describe _).bind fun _ _ => maintains_log quiet _

theorem maintains_logProduced (quiet : Store.Quiet I) (p : Parser) (count : Nat) :
    Maintains I (ev.logProduced p count) fun _ => True :=
  (maintains_describe _).bind fun _ _ => maintains_log quiet _

/-- The messages around a use go unnoticed. -/
theorem maintains_use (quiet : Store.Quiet I) {p : Parser} {input : Value}
    (produced : Maintains I (ev.produce p input) Q) : Maintains I (ev.use p input) Q := by
  rw [use]
  refine Maintains.ite (fun _ => Maintains.raise _) fun _ => ?_
  intro s ds t start success
  obtain ⟨state, s', got, success⟩ := bind_eq_ok_iff.mp success
  cases got
  split at success
  · obtain ⟨_, s', tried, success⟩ := bind_eq_ok_iff.mp success
    obtain ⟨start', -⟩ := maintains_logTrying quiet p input s _ s' start tried
    obtain ⟨found, t', ran, success⟩ := bind_eq_ok_iff.mp success
    obtain ⟨after, holds⟩ := produced s' found t' start' ran
    obtain ⟨_, t'', told, success⟩ := bind_eq_ok_iff.mp success
    obtain ⟨after', -⟩ := maintains_logProduced quiet p _ t' _ t'' after told
    obtain ⟨rfl, rfl⟩ := pure_eq_ok_iff.mp success
    exact ⟨after', holds⟩
  · exact produced s ds t start success

/-- A parser without a mapping produces what it processes. -/
theorem produce_of_mapping_eq_none {p : Parser} (unmapped : p.mapping = none) (input : Value) :
    ev.produce p input = ev.process p input := by
  simp only [produce, unmapped, bind_pure]

/-- The store after the message that comes before a use, if there is one. -/
def Announces (ev : Evaluator) (p : Parser) (input : Value) (s t : Store) : Prop :=
  if s.debug then ev.logTrying p input s = .ok () t else t = s

/-- The message before a use is all that it adds. -/
theorem Announces.traced {p : Parser} {input : Value} {s t : Store}
    (announces : ev.Announces p input s t) : ∃ trace, t = { s with trace := trace } := by
  unfold Announces at announces
  split at announces
  · obtain ⟨shown, _, first, rest⟩ := bind_eq_ok_iff.mp announces
    obtain ⟨read, _, second, logged⟩ := bind_eq_ok_iff.mp rest
    obtain ⟨-, rfl⟩ := describe_eq_ok_iff.mp first
    obtain ⟨-, rfl⟩ := describe_eq_ok_iff.mp second
    cases logged
    exact ⟨_, rfl⟩
  · exact ⟨s.trace, announces⟩

/-- An error of what is processed comes out of the use. -/
theorem use_of_raised {p : Parser} {input : Value} {s t u : Store} {stop : Stop}
    (parser : p.isForeign = false) (announces : ev.Announces p input s t)
    (raised : ev.process p input t = .error stop u) : ev.use p input s = .error stop u := by
  have produced : ev.produce p input t = .error stop u := bind_of_eq_error raised _
  have read : (get : Eval Store) s = .ok s s := rfl
  unfold Announces at announces
  rw [use, if_neg (by simp [parser]), bind_of_eq_ok read]
  split at announces
  · next debug =>
    rw [if_pos debug, bind_of_eq_ok announces]
    exact bind_of_eq_error produced _
  · next debug =>
    rw [if_neg debug, ← announces]
    exact produced

/-- The store after the message that comes after a use, if there is one. -/
def Reports (ev : Evaluator) (p : Parser) (count : Nat) (debug : Bool) (s t : Store) : Prop :=
  if debug then ev.logProduced p count s = .ok () t else t = s

/-- The message after a use is all that it adds. -/
theorem Reports.traced {p : Parser} {count : Nat} {debug : Bool} {s t : Store}
    (reports : ev.Reports p count debug s t) : ∃ trace, t = { s with trace := trace } := by
  unfold Reports at reports
  split at reports
  · obtain ⟨shown, _, first, logged⟩ := bind_eq_ok_iff.mp reports
    obtain ⟨-, rfl⟩ := describe_eq_ok_iff.mp first
    cases logged
    exact ⟨_, rfl⟩
  · exact ⟨s.trace, reports⟩

/-- A parser without a mapping is used in three steps. -/
theorem use_eq_ok_iff {p : Parser} {input : Value} {s v : Store} {ds : List Derivation}
    (parser : p.isForeign = false) (unmapped : p.mapping = none) :
    ev.use p input s = .ok ds v ↔ ∃ t u, ev.Announces p input s t ∧
      ev.process p input t = .ok ds u ∧ ev.Reports p ds.length s.debug u v := by
  have read : (get : Eval Store) s = .ok s s := rfl
  rw [use, if_neg (by simp [parser]), bind_of_eq_ok read, produce_of_mapping_eq_none unmapped]
  unfold Announces Reports
  cases s.debug with
  | true =>
    simp only [if_true, bind_eq_ok_iff, pure_eq_ok_iff]
    constructor
    · rintro ⟨_, t, tried, _, u, ran, _, _, told, rfl, rfl⟩
      exact ⟨t, u, tried, ran, told⟩
    · rintro ⟨t, u, tried, ran, told⟩
      exact ⟨(), t, tried, ds, u, ran, (), v, told, rfl, rfl⟩
  | false => simp

/-! ## Definitions of lazy parsers -/

variable {s : Store} {address : Nat}

/-- A definition that is there is what a lazy parser resolves to, whichever copy asks for it. -/
theorem resolve_of_defined {p : Parser} (defined : (s.cellAt address).definition = some p)
    (ev : Evaluator) (owner : Value) : ev.resolve address owner s = .ok p s := by
  have read : Store.readCell address s = .ok (s.cellAt address) s := rfl
  rw [resolve, bind_of_eq_ok read, defined]
  rfl

/-- A definition can be given where there is neither one nor a factory. -/
theorem define_apply (s : Store) (address : Nat) (v : Value) :
    define address v s =
      if (s.cellAt address).definition.isSome || (s.cellAt address).factory.isSome then
        .error (.error .alreadyDefined) s
      else .ok () (s.settle address (Parser.asParser v)) := by
  have read : Store.readCell address s = .ok (s.cellAt address) s := rfl
  rw [define, bind_of_eq_ok read]
  split <;> rfl

/-- A definition that is missing is made by the factory, for the copy that asks for it. -/
theorem resolve_of_undefined {factory : Value} (undefined : (s.cellAt address).definition = none)
    (makes : (s.cellAt address).factory = some factory) (ev : Evaluator) (owner : Value) :
    ev.resolve address owner s = (do
      let p ← Parser.asParser <$>
        Store.supply address (ev.call factory ([owner].take (factory.arity 1)))
      Store.defineCell address p
      if (← get).debug then ev.logResolved address owner
      return p : Eval Parser) s := by
  have read : Store.readCell address s = .ok (s.cellAt address) s := rfl
  rw [resolve, bind_of_eq_ok read, undefined, makes, bind_map_left]

/-- Without definition and factory there is nothing to resolve to. -/
theorem resolve_of_neither (neither : s.cellAt address = ⟨none, none⟩) (ev : Evaluator)
    (owner : Value) : ev.resolve address owner s = .error (.error .notDefined) s := by
  have read : Store.readCell address s = .ok (s.cellAt address) s := rfl
  rw [resolve, bind_of_eq_ok read, neither]
  rfl

/-- What follows when a factory has returned. -/
theorem logResolved_apply (ev : Evaluator) (address : Nat) (owner : Value) (p : Parser)
    (s : Store) :
    (do if (← get).debug then ev.logResolved address owner
        return p : Eval Parser) s =
      if s.debug then
        match owner.display s.results.unlimited ev.fuel with
        | .ok text =>
          .ok p ({ s with trace := s.trace.push (.text ("resolved ".toList ++ text)) }.note
            address .told)
        | .error stop => .error stop s
      else .ok p s := by
  have read : (get : Eval Store) s = .ok s s := rfl
  rw [bind_of_eq_ok read]
  split
  · have shown : ev.describe owner s =
        (liftM (owner.display s.results.unlimited ev.fuel) : Eval _) s := rfl
    cases found : owner.display s.results.unlimited ev.fuel with
    | ok text =>
      rw [found] at shown
      have logged : ev.logResolved address owner s = _ := (bind_of_eq_ok shown _).trans rfl
      exact (bind_of_eq_ok logged _).trans rfl
    | error stop =>
      rw [found] at shown
      have logged : ev.logResolved address owner s = _ := bind_of_eq_error shown _
      exact bind_of_eq_error logged _
  · rfl

/-- Where there is no definition but a factory, the factory is called. If the call ends without a
value, so does the use, and the cell stays as the call has left it. -/
theorem resolve_of_waiting {factory : Value}
    (waiting : s.cellAt address = ⟨some factory, none⟩) (ev : Evaluator) (owner : Value) :
    ev.resolve address owner s =
      match ev.call factory ([owner].take (factory.arity 1)) (s.note address .called) with
      | .error stop u => .error stop (u.note address .failed)
      | .ok v u =>
        let t := (u.note address .returned).settle address (Parser.asParser v)
        if t.debug then
          match owner.display t.results.unlimited ev.fuel with
          | .ok text =>
            .ok (Parser.asParser v)
              ({ t with trace := t.trace.push (.text ("resolved ".toList ++ text)) }.note
                address .told)
          | .error stop => .error stop t
        else .ok (Parser.asParser v) t := by
  rw [resolve_of_undefined (by rw [waiting]) (by rw [waiting]), bind_map_left]
  cases called : ev.call factory ([owner].take (factory.arity 1)) (s.note address .called) with
  | ok v u =>
    have supplied : Store.supply address (ev.call factory ([owner].take (factory.arity 1))) s =
        .ok v (u.note address .returned) := by rw [Store.supply, called]
    rw [bind_of_eq_ok supplied]
    exact logResolved_apply ev address owner (Parser.asParser v) _
  | error stop u =>
    have supplied : Store.supply address (ev.call factory ([owner].take (factory.arity 1))) s =
        .error stop (u.note address .failed) := by rw [Store.supply, called]
    exact bind_of_eq_error supplied _

/-- What a factory returns is the definition. -/
theorem resolve_of_returned {factory v : Value} {u : Store}
    (waiting : s.cellAt address = ⟨some factory, none⟩) {ev : Evaluator} {owner : Value}
    (returned : ev.call factory ([owner].take (factory.arity 1)) (s.note address .called) =
      .ok v u) :
    ev.resolve address owner s =
      (do if (← get).debug then ev.logResolved address owner
          return Parser.asParser v : Eval Parser)
        ((u.note address .returned).settle address (Parser.asParser v)) := by
  rw [resolve_of_waiting waiting, returned, logResolved_apply]

/-- What a factory raises comes out of the use. -/
theorem resolve_of_raised {factory : Value} {u : Store} {stop : Stop}
    (waiting : s.cellAt address = ⟨some factory, none⟩) {ev : Evaluator} {owner : Value}
    (raised : ev.call factory ([owner].take (factory.arity 1)) (s.note address .called) =
      .error stop u) :
    ev.resolve address owner s = .error stop (u.note address .failed) := by
  rw [resolve_of_waiting waiting, raised]

/-- A lazy parser is its definition. -/
theorem process_of_lazy {p : Parser} (shape : p.shape = .lazy address) (ev : Evaluator)
    (input : Value) :
    ev.process p input = (do ev.parse (← ev.resolve address (.parser p)) input) := by
  simp only [process, shape]

/-- Neither mapping nor name have a part in what is found, unless a definition is still missing. -/
theorem process_congr {shape : Shape} {mapping mapping' name name' : Option Value}
    (defined : ∀ address, shape = .lazy address → ∃ q, (s.cellAt address).definition = some q)
    (ev : Evaluator) (input : Value) :
    ev.process (.node shape mapping' name') input s =
      ev.process (.node shape mapping name) input s := by
  cases shape with
  | unit v => cases v <;> rfl
  | lazy address =>
    obtain ⟨q, defined⟩ := defined address rfl
    have resolved := resolve_of_defined defined ev
    change (ev.resolve address _ >>= _) s = (ev.resolve address _ >>= _) s
    rw [bind_of_eq_ok (resolved _), bind_of_eq_ok (resolved _)]
  | _ => rfl

end Evaluator

end GrammarKit
