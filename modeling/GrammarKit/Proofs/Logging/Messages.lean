import GrammarKit.Proofs.Comparison.Pairing
import GrammarKit.Proofs.Logging.Acyclic

/-! # Messages

What the debug messages say, as a text that depends on the result lists and on the depth that is
there to show things. Apart from that, a message is an entry of the trace.
-/

namespace GrammarKit

/-- The text of a message. -/
abbrev MessageText := Results → Nat → Except Stop (List Char)

namespace MessageText

/-- The text of the message before a parser is evaluated. -/
def trying (p : Parser) (input : Value) : MessageText := fun results n => do
  let shown ← Value.display results.unlimited n (.parser p)
  let read ← Value.display results.unlimited n input
  return "trying ".toList ++ shown ++ " on ".toList ++ read.take 40

/-- The text of the message after a parser has been evaluated. -/
def produced (p : Parser) (count : Nat) : MessageText := fun results n => do
  let shown ← Value.display results.unlimited n (.parser p)
  return shown ++ " produced ".toList ++ natText count ++ " derivation(s)".toList

/-- The text of the message after a lazy parser has got its definition from its factory. -/
def resolved (owner : Value) : MessageText := fun results n => do
  let shown ← Value.display results.unlimited n owner
  return "resolved ".toList ++ shown

variable {s : Store} {p : Parser} {input owner : Value}

/-- What is shown is shown at every greater depth. -/
theorem deep_display {results : Results} {n : Nat} {v : Value} {cs : List Char}
    (shows : v.display results n = .ok cs) : Deep fun m => v.display results m = .ok cs :=
  ⟨n, fun _ le => ((Value.sooner_display le v).resolve_left (by simp [shows])).symm.trans shows⟩

/-- Where no result list can be reached from itself, a value has one text, from some depth on. -/
theorem exists_display (acyclic : s.results.Acyclic) (sound : s.Sound .texts) {v : Value}
    (within : v.Within (Names.texts.below s.results.size)) :
    ∃ cs, Deep fun n => v.display s.results.unlimited n = .ok cs := by
  obtain ⟨depth, shows⟩ := Value.deep_display_of_acyclic acyclic sound within
  obtain ⟨cs, text⟩ := shows depth (Nat.le_refl _)
  exact ⟨cs, deep_display text⟩

theorem exists_trying (acyclic : s.results.Acyclic) (sound : s.Sound .texts)
    (parser : p.Within (Names.texts.below s.results.size))
    (read : input.Within (Names.texts.below s.results.size)) :
    ∃ cs, Deep fun n => trying p input s.results n = .ok cs := by
  obtain ⟨shown, first⟩ := exists_display acyclic sound (v := .parser p) parser
  obtain ⟨text, second⟩ := exists_display acyclic sound read
  exact ⟨_, first.both second fun n here there => by rw [trying, here, there]; rfl⟩

theorem exists_produced (acyclic : s.results.Acyclic) (sound : s.Sound .texts)
    (parser : p.Within (Names.texts.below s.results.size)) (count : Nat) :
    ∃ cs, Deep fun n => produced p count s.results n = .ok cs := by
  obtain ⟨shown, first⟩ := exists_display acyclic sound (v := .parser p) parser
  exact ⟨_, first.mono fun n here => by rw [produced, here]; rfl⟩

theorem exists_resolved (acyclic : s.results.Acyclic) (sound : s.Sound .texts)
    (within : owner.Within (Names.texts.below s.results.size)) :
    ∃ cs, Deep fun n => resolved owner s.results n = .ok cs := by
  obtain ⟨shown, first⟩ := exists_display acyclic sound within
  exact ⟨_, first.mono fun n here => by rw [resolved, here]; rfl⟩

variable {b : Bounds} {results : Results}

/-- Where all names are texts, a value that is not shown is one that there was no depth for. -/
theorem failsOnly_resolved (texts : ∀ v, b.name v → ∃ cs, v = .text cs)
    (store : results.All (Value.Within b)) (within : owner.Within b) (n : Nat) :
    FailsOnly (fun _ => False) (resolved owner results n) :=
  (FailsOnly.compositional _).bind (Value.display_ne_error texts store n within) fun _ => nofun

theorem failsOnly_trying (texts : ∀ v, b.name v → ∃ cs, v = .text cs)
    (store : results.All (Value.Within b)) (parser : p.Within b) (read : input.Within b)
    (n : Nat) : FailsOnly (fun _ => False) (trying p input results n) :=
  (FailsOnly.compositional _).bind (Value.display_ne_error texts store n (v := .parser p) parser)
    fun _ => (FailsOnly.compositional _).bind (Value.display_ne_error texts store n read)
      fun _ => nofun

end MessageText

/-- The store after a message, about which a note may be made. -/
def Store.hear (cs : List Char)
    (noted : Array (Nat × CellEvent) → Array (Nat × CellEvent)) (s : Store) : Store :=
  { s with trace := s.trace.push (.text cs), history := noted s.history }

/-- Whether evaluators do nothing but tell a message. -/
structure Evaluator.Tells (say : Evaluator → Eval Unit) (text : MessageText)
    (noted : Array (Nat × CellEvent) → Array (Nat × CellEvent)) : Prop where
  apply : ∀ ev s, say ev s =
    match text s.results ev.fuel with
    | .ok cs => .ok () (s.hear cs noted)
    | .error stop => .error stop s
  sooner : ∀ results n m, n ≤ m → Sooner (text results n) (text results m)

namespace Evaluator

open Eval

variable {ev : Evaluator} {p : Parser} {input : Value} {s : Store}

theorem describe_bind {α : Type} (ev : Evaluator) (v : Value) (f : List Char → Eval α) (s : Store) :
    (ev.describe v >>= f) s =
      match Value.display s.results.unlimited ev.fuel v with
      | .ok text => f text s
      | .error stop => .error stop s := by
  have shown : ev.describe v s = (liftM (Value.display s.results.unlimited ev.fuel v) : Eval _) s :=
    rfl
  cases found : Value.display s.results.unlimited ev.fuel v with
  | ok text =>
    rw [found] at shown
    exact bind_of_eq_ok shown f
  | error stop =>
    rw [found] at shown
    exact bind_of_eq_error shown f

theorem tells_logTrying (p : Parser) (input : Value) :
    Tells (fun ev => ev.logTrying p input) (.trying p input) id where
  apply ev s := by
    rw [logTrying, describe_bind, MessageText.trying]
    cases Value.display s.results.unlimited ev.fuel (.parser p) with
    | error stop => rfl
    | ok text =>
      refine (ev.describe_bind input _ s).trans ?_
      cases Value.display s.results.unlimited ev.fuel input <;> rfl
  sooner _ _ _ le := (Value.sooner_display le _).bind fun _ =>
    (Value.sooner_display le _).bind fun _ => .refl _

theorem tells_logProduced (p : Parser) (count : Nat) :
    Tells (fun ev => ev.logProduced p count) (.produced p count) id where
  apply ev s := by
    rw [logProduced, describe_bind, MessageText.produced]
    cases Value.display s.results.unlimited ev.fuel (.parser p) <;> rfl
  sooner _ _ _ le := (Value.sooner_display le _).bind fun _ => .refl _

theorem tells_logResolved (address : Nat) (owner : Value) :
    Tells (fun ev => ev.logResolved address owner) (.resolved owner)
      (·.push (address, .told)) where
  apply ev s := by
    rw [logResolved, describe_bind, MessageText.resolved]
    cases Value.display s.results.unlimited ev.fuel owner <;> rfl
  sooner _ _ _ le := (Value.sooner_display le _).bind fun _ => .refl _

/-- A message that is told is told at every greater depth. -/
theorem Tells.told {say : Evaluator → Eval Unit} {text : MessageText}
    {noted : Array (Nat × CellEvent) → Array (Nat × CellEvent)} (tells : Tells say text noted)
    {cs : List Char} (here : text s.results ev.fuel = .ok cs) {E : Nat → Evaluator}
    (deeper : Deep fun m => ev.fuel ≤ (E m).fuel) :
    say ev s = .ok () (s.hear cs noted) ∧ Deep fun m => say (E m) s = .ok () (s.hear cs noted) := by
  refine ⟨by rw [tells.apply, here], deeper.mono fun m le => ?_⟩
  rw [tells.apply, ← (tells.sooner s.results _ _ le).resolve_left (by simp [here]), here]

/-- A message that can be told is told, unless the depth is used up. -/
theorem Tells.out_or_told {say : Evaluator → Eval Unit} {text : MessageText}
    {noted : Array (Nat × CellEvent) → Array (Nat × CellEvent)} (tells : Tells say text noted)
    (shows : FailsOnly (fun _ => False) (text s.results ev.fuel)) {E : Nat → Evaluator}
    (deeper : Deep fun m => ev.fuel ≤ (E m).fuel) :
    say ev s = .error .outOfFuel s ∨
      ∃ cs, text s.results ev.fuel = .ok cs ∧ say ev s = .ok () (s.hear cs noted) ∧
        Deep fun m => say (E m) s = .ok () (s.hear cs noted) := by
  cases found : text s.results ev.fuel with
  | error stop =>
    cases stop with
    | error e => exact (shows e found).elim
    | outOfFuel => exact .inl (by rw [tells.apply, found])
  | ok cs => exact .inr ⟨cs, rfl, tells.told found deeper⟩

/-- Does something only while messages are recorded. -/
def whenLoud (loud : Bool) (say : Eval Unit) : Eval Unit := if loud then say else pure ()

theorem whenLoud_true (say : Eval Unit) : whenLoud true say = say := rfl

theorem whenLoud_false (say : Eval Unit) : whenLoud false say = pure () := rfl

/-- Whether a message is told or not, only trace and history can become different. -/
theorem Tells.afterwards_eq {say : Evaluator → Eval Unit} {text : MessageText}
    {noted : Array (Nat × CellEvent) → Array (Nat × CellEvent)} (tells : Tells say text noted)
    (loud : Bool) (ev : Evaluator) (s : Store) : ∃ trace history,
      afterwards (whenLoud loud (say ev) s) = { s with trace := trace, history := history } := by
  cases loud with
  | false => exact ⟨s.trace, s.history, rfl⟩
  | true =>
    rw [whenLoud_true, tells.apply]
    cases text s.results ev.fuel with
    | ok cs => exact ⟨_, _, rfl⟩
    | error stop => exact ⟨s.trace, s.history, rfl⟩

/-- A use of a parser, with messages around it or without. -/
def useWith (loud : Bool) (ev : Evaluator) (p : Parser) (input : Value) :
    Eval (List Derivation) := do
  whenLoud loud (ev.logTrying p input)
  let found ← ev.produce p input
  whenLoud loud (ev.logProduced p found.length)
  return found

/-- Whether there are messages around a use is settled when it begins. -/
theorem use_apply (parser : p.isForeign = false) (ev : Evaluator) (input : Value) (s : Store) :
    ev.use p input s = useWith s.debug ev p input s := by
  have start : (get : Eval Store) s = .ok s s := rfl
  rw [use, if_neg (by simp [parser]), bind_of_eq_ok start, useWith]
  cases s.debug with
  | true => rfl
  | false =>
    simp only [Bool.false_eq_true, ↓reduceIte, whenLoud_false, pure_bind, bind_pure]

/-- A use with messages, whose last message is told. -/
theorem useWith_of_ok {found : List Derivation} {t u v : Store}
    (announced : ev.logTrying p input s = .ok () t) (produced : ev.produce p input t = .ok found u)
    (concluded : ev.logProduced p found.length u = .ok () v) :
    useWith true ev p input s = .ok found v := by
  rw [useWith, whenLoud_true, bind_of_eq_ok announced, bind_of_eq_ok produced, whenLoud_true,
    bind_of_eq_ok concluded]
  rfl

/-- A use with messages that does not come to its last message. -/
theorem useWith_of_error {stop : Stop} {t u : Store}
    (announced : ev.logTrying p input s = .ok () t)
    (produced : ev.produce p input t = .error stop u) :
    useWith true ev p input s = .error stop u := by
  rw [useWith, whenLoud_true, bind_of_eq_ok announced]
  exact bind_of_eq_error produced _

/-- The result lists after a use are those that what is used has left. -/
theorem results_useWith {loud : Bool} {t : Store}
    (announced : whenLoud loud (ev.logTrying p input) s = .ok () t) :
    (afterwards (useWith loud ev p input s)).results =
      (afterwards (ev.produce p input t)).results := by
  rw [useWith, bind_of_eq_ok announced]
  cases produced : ev.produce p input t with
  | error stop u => rw [bind_of_eq_error produced]
  | ok found u =>
    rw [bind_of_eq_ok produced]
    obtain ⟨trace, history, same⟩ :=
      (tells_logProduced p found.length).afterwards_eq loud ev u
    cases told : whenLoud loud (ev.logProduced p found.length) u with
    | error stop v =>
      rw [bind_of_eq_error told]
      rw [told] at same
      have results := congrArg Store.results same
      exact results
    | ok _ v =>
      rw [bind_of_eq_ok told]
      rw [told] at same
      have results := congrArg Store.results same
      exact results

/-- What follows when a factory has returned. -/
theorem logResolved_eq_whenLoud (ev : Evaluator) (address : Nat) (owner : Value) (q : Parser)
    (s : Store) :
    (do if (← get).debug then ev.logResolved address owner
        return q : Eval Parser) s =
      (do whenLoud s.debug (ev.logResolved address owner)
          return q : Eval Parser) s := by
  have start : (get : Eval Store) s = .ok s s := rfl
  rw [bind_of_eq_ok start]
  cases s.debug <;> rfl

end Evaluator

end GrammarKit
