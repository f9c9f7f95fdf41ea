import GrammarKit.Proofs.Logging.Messages

/-! # Recording debug messages or not

A run during which debug messages are recorded does what the same run does without them: it gives
the same values and errors, calls the same functions and leaves the same result lists and cells.
There is more in its trace, which is messages.

The two runs are compared with a third one that has been seen to end. This may be either of them, as
far as results are concerned, so that none of the two can end without the other.
-/

namespace GrammarKit

open Eval (afterwards)

/-- Whether an entry is a text, as messages are. -/
def Answer.isText : Answer → Bool
  | .text _ => true
  | _ => false

/-- Whether two traces are the same but for the messages in the trace of the run that records them.
-/
inductive Heard (x y : Bool) : List Answer → List Answer → Prop where
  | nil : Heard x y [] []
  | both {first second : List Answer} (entry : Answer) : Heard x y first second →
    Heard x y (first ++ [entry]) (second ++ [entry])
  | first {first second : List Answer} (cs : List Char) : x = true → y = false →
    Heard x y first second → Heard x y (first ++ [.text cs]) second
  | second {first second : List Answer} (cs : List Char) : x = false → y = true →
    Heard x y first second → Heard x y first (second ++ [.text cs])

namespace Heard

variable {x y : Bool} {first second : List Answer}

theorem symm (heard : Heard x y first second) : Heard y x second first := by
  induction heard with
  | nil => exact .nil
  | both entry _ ih => exact .both entry ih
  | first cs loud quiet _ ih => exact .second cs quiet loud ih
  | second cs quiet loud _ ih => exact .first cs loud quiet ih

/-- Where both record messages or none does, there is no difference. -/
theorem eq (heard : Heard x x first second) : first = second := by
  induction heard with
  | nil => rfl
  | both entry _ ih => rw [ih]
  | first _ loud quiet => cases loud.symm.trans quiet
  | second _ quiet loud => cases loud.symm.trans quiet

/-- Apart from texts there is no difference. -/
theorem filter_eq (heard : Heard x y first second) :
    first.filter (!·.isText) = second.filter (!·.isText) := by
  induction heard with
  | nil => rfl
  | both entry _ ih => rw [List.filter_append, List.filter_append, ih]
  | first cs _ _ _ ih =>
    rw [List.filter_append, ih]
    exact List.append_nil _
  | second cs _ _ _ ih =>
    rw [List.filter_append, ih]
    exact (List.append_nil _).symm

/-- Of two traces that are compared with the same one, the louder one holds the messages. -/
theorem between {seen loud quiet : List Answer} (heard : Heard x true seen loud)
    (heard' : Heard x false seen quiet) : Heard true false loud quiet := by
  cases x with
  | true => exact heard.eq ▸ heard'
  | false => exact heard'.eq ▸ heard.symm

end Heard

/-- Whether two stores are the same but for messages. Both may be recording them for once. -/
structure Store.Alike (x y : Bool) (s t : Store) : Prop where
  results : t.results = s.results
  cells : t.cells = s.cells
  globals : t.globals = s.globals
  debug : s.debug = x ∧ t.debug = y ∨ s.debug = true ∧ t.debug = true
  trace : Heard x y s.trace.toList t.trace.toList

namespace Store.Alike

variable {x y : Bool} {s t : Store} (alike : Store.Alike x y s t)

include alike

theorem note (address : Nat) (event : CellEvent) :
    Store.Alike x y (s.note address event) (t.note address event) :=
  ⟨alike.results, alike.cells, alike.globals, alike.debug, alike.trace⟩

theorem settle (address : Nat) (p : Parser) :
    Store.Alike x y (s.settle address p) (t.settle address p) where
  results := by simp only [results_settle, alike.results]
  cells := cells_settle_congr alike.cells address p
  globals := by simp only [globals_settle, alike.globals]
  debug := by simp only [debug_settle, alike.debug]
  trace := by simp only [trace_settle, alike.trace]

omit alike in
theorem between {seen loud quiet : Store} (alike : Store.Alike x true seen loud)
    (alike' : Store.Alike x false seen quiet) : Store.Alike true false loud quiet where
  results := alike'.results.trans alike.results.symm
  cells := alike'.cells.trans alike.cells.symm
  globals := alike'.globals.trans alike.globals.symm
  debug := by
    have recording : loud.debug = true := alike.debug.elim And.right And.right
    cases quietly : quiet.debug with
    | false => exact .inl ⟨recording, rfl⟩
    | true => exact .inr ⟨recording, rfl⟩
  trace := alike.trace.between alike'.trace

end Store.Alike

/-- The pairing of evaluations one of which may record messages. -/
def Pairing.muted (x y : Bool) : Pairing where
  names := .texts
  Counts := Results.Acyclic
  counts := .of_le
  Coupled := Store.Alike x y
  same alike := ⟨alike.results, alike.cells, alike.globals⟩
  Between s t s' t' := s'.debug = s.debug ∧ t'.debug = t.debug
  refl _ := ⟨rfl, rfl⟩
  trans first second := ⟨second.1.trans first.1, second.2.trans first.2⟩
  Failed s t _ s' t' := (s'.debug = s.debug ∧ t'.debug = t.debug) ∧ Store.Alike x y s' t'
  failed _ alike := ⟨⟨rfl, rfl⟩, alike⟩
  further first failed := ⟨⟨failed.1.1.trans first.1, failed.1.2.trans first.2⟩, failed.2⟩
  Exhausted _ _ := True
  exhausted := trivial
  beyond _ _ := trivial
  mayAppend := True
  mayTrace := True

namespace Pairing

open Evaluator (whenLoud whenLoud_true whenLoud_false)

variable {x y : Bool} {w : Nat} {ev : Evaluator} {E : Nat → Evaluator} {s t : Store}

/-- A message is told on the sides that record them. -/
theorem muted_tells (ev : Evaluator) {say : Evaluator → Eval Unit} {text : MessageText}
    {noted : Array (Nat × CellEvent) → Array (Nat × CellEvent)}
    (tells : Evaluator.Tells say text noted) (grows : ∀ k, Deep fun m => k ≤ (E m).fuel)
    (ends : ∃ cs, Deep fun n => text s.results n = .ok cs) (alike : s.Alike x y t) :
    (muted x y).Ends s t (fun m => whenLoud t.debug (say (E m)) t)
      (whenLoud s.debug (say ev) s) := by
  obtain ⟨cs, depth, ends⟩ := ends
  have told : Deep fun m => say (E m) t = .ok () (t.hear cs noted) :=
    (grows depth).mono fun m le => by rw [tells.apply, alike.results, ends _ le]
  have tried : say ev s = .error .outOfFuel s ∨ say ev s = .ok () (s.hear cs noted) := by
    rw [tells.apply]
    rcases tells.sooner s.results _ _ (Nat.le_max_left ev.fuel depth) with out | same
    · exact .inl (by rw [out])
    · exact .inr (by rw [same, ends _ (Nat.le_max_right ..)])
  cases loud : s.debug <;> cases loud' : t.debug <;> simp only [whenLoud_true, whenLoud_false]
  · exact .value alike ⟨rfl, rfl⟩ (.always fun _ => rfl)
  · -- Only the second side records messages.
    obtain ⟨rfl, rfl⟩ : x = false ∧ y = true := by
      rcases alike.debug with ⟨rfl, rfl⟩ | ⟨other, -⟩
      · exact ⟨loud, loud'⟩
      · cases loud.symm.trans other
    have heard : Store.Alike false true s (t.hear cs noted) := by
      refine ⟨alike.results, alike.cells, alike.globals, alike.debug, ?_⟩
      rw [Store.hear, Array.toList_push]
      exact .second cs rfl rfl alike.trace
    exact .value heard ⟨rfl, rfl⟩ told
  · obtain ⟨rfl, rfl⟩ : x = true ∧ y = false := by
      rcases alike.debug with ⟨rfl, rfl⟩ | ⟨-, other⟩
      · exact ⟨loud, loud'⟩
      · cases loud'.symm.trans other
    rcases tried with out | here
    · rw [out]
      exact .exhausted trivial
    · have heard : Store.Alike true false (s.hear cs noted) t := by
        refine ⟨alike.results, alike.cells, alike.globals, alike.debug, ?_⟩
        rw [Store.hear, Array.toList_push]
        exact .first cs rfl rfl alike.trace
      rw [here]
      exact .value heard ⟨rfl, rfl⟩ (.always fun _ => rfl)
  · rcases tried with out | here
    · rw [out]
      exact .exhausted trivial
    · have heard : Store.Alike x y (s.hear cs noted) (t.hear cs noted) := by
        refine ⟨alike.results, alike.cells, alike.globals, alike.debug, ?_⟩
        rw [Store.hear, Store.hear, Array.toList_push, Array.toList_push]
        exact .both _ alike.trace
      rw [here]
      exact .value heard ⟨rfl, rfl⟩ told

theorem muted_resolve {address : Nat} {owner : Value}
    (tracks : (muted x y).comparison.Tracks ev E)
    (within : owner.Within (Names.texts.below w)) :
    (muted x y).Holds w (ev.resolve address owner) (fun m => (E m).resolve address owner)
      (muted x y).comparison.parser := by
  refine resolves tracks within (fun alike => alike.note address .called) ?_
    (fun _ _ failed => ⟨failed.1, failed.2.note address .failed⟩) fun _ _ => trivial
  intro s t u v f q _ _ alike between sound le acyclic
  have settled := Store.Alike.settle (alike.note address .returned) address q
  have same : ((u.note address .returned).settle address q).results = u.results :=
    Store.results_settle ..
  have shown := MessageText.exists_resolved acyclic sound
    (within.mono (Names.texts.below_le le))
  have ends := muted_tells ev (Evaluator.tells_logResolved address owner) tracks.grows
    (same ▸ shown) settled
  simp only [Evaluator.logResolved_eq_whenLoud]
  refine Ends.after (p := muted x y) ?_ (ends.bind fun _ u' v' _ alike' _ => ?_)
  · exact ⟨(Store.debug_settle ..).trans between.1, (Store.debug_settle ..).trans between.2⟩
  · exact .value alike' ⟨rfl, rfl⟩ (.always fun _ => rfl)

theorem muted_uses : (muted x y).comparison.Uses := by
  intro w ev E q input grows parser read produced
  have processed := produced w (Nat.le_refl w)
  refine ⟨.use processed.1, ?_⟩
  rintro s t rfl sound alike counts
  obtain ⟨keeps, -, -⟩ := Eval.Sound.use processed.1 s rfl sound
  have acyclic : s.results.Acyclic := counts.of_le keeps.results
  by_cases foreign : q.isForeign = true
  · simp only [Evaluator.use, if_pos foreign]
    exact .error ⟨⟨rfl, rfl⟩, alike⟩ (.always fun _ => rfl)
  have actual : q.isForeign = false := by simpa using foreign
  simp only [Evaluator.use_apply actual] at counts ⊢
  have trying := Evaluator.tells_logTrying q input
  have announced := muted_tells ev trying grows
    (MessageText.exists_trying acyclic sound parser read) alike
  refine announced.bind fun _ s₁ t₁ tried alike₁ between₁ => ?_
  have counts₁ : (afterwards (ev.produce q input s₁)).results.Acyclic :=
    Evaluator.results_useWith tried ▸ counts
  obtain ⟨trace, history, same⟩ := trying.afterwards_eq s.debug ev s
  rw [tried] at same
  change s₁ = _ at same
  have sound₁ : s₁.Sound .texts := by
    rw [same]
    exact sound.congr rfl rfl rfl
  have size₁ : s₁.results.size = s.results.size := by rw [same]
  obtain ⟨keeps₁, sound₂, -⟩ := processed.1 s₁ size₁ sound₁
  have ends := processed.2 s₁ t₁ size₁ sound₁ alike₁ counts₁
  refine ends.bind fun found s₂ t₂ ran alike₂ between₂ => ?_
  have parser₂ := parser.mono (Names.texts.below_le (size₁ ▸ keeps₁.results.size))
  rw [ran] at sound₂ counts₁ parser₂
  have concluded := muted_tells (s := s₂) ev (Evaluator.tells_logProduced q found.length)
    grows (MessageText.exists_produced counts₁ sound₂ parser₂ _) alike₂
  rw [between₂.1.trans between₁.1, between₂.2.trans between₁.2] at concluded
  refine concluded.bind fun _ s₃ t₃ _ alike₃ _ => ?_
  exact .value alike₃ ⟨rfl, rfl⟩ (.always fun _ => rfl)

/-- Evaluations run side by side, whether messages are recorded or not. -/
theorem muted_sustained : (muted x y).Sustained where
  push ds alike := ⟨⟨congrArg (·.push ds) alike.results, alike.cells, alike.globals, alike.debug,
    alike.trace⟩, rfl, rfl⟩
  extend _ _ _ address ds alike := by
    refine ⟨⟨?_, alike.cells, alike.globals, alike.debug, alike.trace⟩, rfl, rfl⟩
    simp only [alike.results]
  addCell factory alike := ⟨⟨alike.results, congrArg (·.push ⟨factory, none⟩) alike.cells,
    alike.globals, alike.debug, alike.trace⟩, rfl, rfl⟩
  settle address q _ alike :=
    ⟨alike.settle address q, Store.debug_settle .., Store.debug_settle ..⟩
  trace _ _ _ entry alike := by
    refine ⟨⟨alike.results, alike.cells, alike.globals, alike.debug, ?_⟩, rfl, rfl⟩
    simp only [Array.toList_push]
    exact .both entry alike.trace
  assign name v alike := ⟨⟨alike.results, alike.cells, congrArg ((name, v) :: ·) alike.globals,
    alike.debug, alike.trace⟩, rfl, rfl⟩
  loud alike := ⟨alike.results, alike.cells, alike.globals, .inr ⟨rfl, rfl⟩, alike.trace⟩
  loudValue alike alike' _ := ⟨⟨alike'.results, alike'.cells, alike'.globals, alike.debug,
    alike'.trace⟩, rfl, rfl⟩
  loudError alike failed := ⟨⟨rfl, rfl⟩, failed.2.results, failed.2.cells, failed.2.globals,
    alike.debug, failed.2.trace⟩
  loudExhausted _ _ := trivial
  resolve := muted_resolve

end Pairing

/-! ## Runs -/

/-- Records an entry, if there is one. -/
def Store.recordIfAny : Option Answer → Eval Unit
  | some entry => record entry
  | none => pure ()

/-- Records what there is to note about every call of a function. -/
def Watch.noting (note : Value → List Value → Option Answer) : Watch where
  call ev f arguments := do
    Store.recordIfAny (note f arguments)
    ev.apply f arguments

/-- Besides, goes no further where a parser would get a name that is no text. -/
def Watch.notingTexts (note : Value → List Value → Option Answer) : Watch :=
  { noting note with operation := Watch.texts.operation }

namespace Pairing

variable {x y : Bool} {note : Value → List Value → Option Answer}

theorem muted_respects :
    (muted x y).comparison.Respects (.notingTexts note) (.noting note) where
  parse tracks parser read := muted_sustained.lawful.parse muted_uses tracks parser read
  call := by
    intro w ev E f arguments tracks function all
    refine muted_sustained.lawful.after (P := fun _ => True) ?_ fun _ _ =>
      muted_sustained.lawful.apply tracks function all
    cases note f arguments with
    | some entry => exact muted_sustained.lawful.record trivial
    | none => exact muted_sustained.lawful.pure ⟨rfl, trivial⟩
  operation tracks all :=
    muted_sustained.lawful.operation_texts trivial (fun cs => ⟨cs, rfl⟩) tracks all
  record _ := muted_sustained.lawful.record trivial

theorem muted_tracks (note : Value → List Value → Option Answer) (n : Nat) :
    (muted x y).comparison.Tracks (watched (.notingTexts note) n)
      fun m => watched (.noting note) m :=
  muted_sustained.lawful.tracks muted_respects n

end Pairing

/-- Whether two steps have ended alike, with more messages in the trace of the louder one. -/
structure Outcome.Alike (x y : Bool) (o o' : Outcome) : Prop where
  answer : o'.answer = o.answer
  trace : Heard x y o.trace.toList o'.trace.toList
  /-- What is noted of calls is the same and in the same order, unless it could be a message. -/
  noted : o.trace.toList.filter (!·.isText) = o'.trace.toList.filter (!·.isText) :=
    trace.filter_eq

theorem Outcome.Alike.between {x : Bool} {seen loud quiet : Outcome}
    (alike : Outcome.Alike x true seen loud) (alike' : Outcome.Alike x false seen quiet) :
    Outcome.Alike true false loud quiet :=
  let heard := alike.trace.between alike'.trace
  ⟨alike'.answer.trans alike.answer.symm, heard, heard.filter_eq⟩

namespace Session

variable {note : Value → List Value → Option Answer} {n : Nat} {s t : Store}

/-- Result lists only grow in a step. -/
theorem le_runStep (note : Value → List Value → Option Answer) (step : Step)
    (sound : s.Sound .texts) :
    let run := runStep (watched (.notingTexts note) n) step s
    s.results.Le run.2.results ∧ run.2.Sound .texts := by
  have start : Store.Sound .texts { s with trace := #[] } := sound.congr rfl rfl rfl
  have tracks := Pairing.muted_tracks note (x := false) (y := false) n
  obtain ⟨keeps, after, -⟩ := (Pairing.muted_sustained.evaluate tracks step).1 _ rfl start
  simp only [runStep_eq]
  generalize evaluate (watched (.notingTexts note) n) step { s with trace := #[] } = r
    at keeps after
  cases r <;> exact ⟨keeps.results, after⟩

theorem le_runSteps (steps : List Step) : ∀ {s : Store}, s.Sound .texts →
    s.results.Le (runSteps (watched (.notingTexts note) n) steps s).2.results := by
  induction steps with
  | nil => exact fun _ => .refl _
  | cons step steps ih =>
    intro s sound
    obtain ⟨le, after⟩ := le_runStep note (n := n) step sound
    exact le.trans (ih after)

/-- A step ends alike whether messages are recorded or not. -/
theorem alike_runStep {x y : Bool} (step : Step) (sound : s.Sound .texts)
    (alike : s.Alike x y t) :
    let run := runStep (watched (.notingTexts note) n) step s
    run.1.answer ≠ .error .outOfFuel → run.2.results.Acyclic →
      ∃ outcome u, run.1.Alike x y outcome ∧ run.2.Alike x y u ∧
        Deep fun m => runStep (watched (.noting note) m) step t = (outcome, u) := by
  have start : Store.Sound .texts { s with trace := #[] } := sound.congr rfl rfl rfl
  have alike' : Store.Alike x y { s with trace := #[] } { t with trace := #[] } :=
    ⟨alike.results, alike.cells, alike.globals, alike.debug, .nil⟩
  have tracks := Pairing.muted_tracks note (x := x) (y := y) n
  have ends := (Pairing.muted_sustained.evaluate tracks step).2 _ _ rfl start alike'
  simp only [runStep_eq]
  generalize evaluate (watched (.notingTexts note) n) step { s with trace := #[] } = r at ends
  intro finished acyclic
  have considered : (afterwards r).results.Acyclic := by
    cases r <;> exact acyclic
  cases ends considered with
  | @value a _ u after _ deep =>
    exact ⟨⟨.ok a, u.trace⟩, u, ⟨rfl, after.trace, after.trace.filter_eq⟩, after,
      deep.mono fun m here => congrArg Outcome.ofResult here⟩
  | @error e _ u failed deep =>
    exact ⟨⟨.error (.error e), u.trace⟩, u,
      ⟨rfl, failed.2.trace, failed.2.trace.filter_eq⟩, failed.2,
      deep.mono fun m here => congrArg Outcome.ofResult here⟩
  | exhausted => exact absurd rfl finished

/-- Runs end alike, step by step. -/
theorem alike_runSteps {x : Bool} (steps : List Step) : ∀ {s loud quiet : Store},
    s.Sound .texts → s.Alike x true loud → s.Alike x false quiet →
    let run := runSteps (watched (.notingTexts note) n) steps s
    (∀ outcome ∈ run.1, outcome.answer ≠ .error .outOfFuel) → run.2.results.Acyclic →
      ∃ os os' u u', os.map (·.answer) = run.1.map (·.answer) ∧
        List.Forall₂ (Outcome.Alike true false) os os' ∧ u.Alike true false u' ∧
        u.results = run.2.results ∧
        Deep fun m => runSteps (watched (.noting note) m) steps loud = (os, u) ∧
          runSteps (watched (.noting note) m) steps quiet = (os', u') := by
  induction steps with
  | nil =>
    intro s loud quiet _ alike alike' _ _ _
    exact ⟨[], [], loud, quiet, rfl, .nil, alike.between alike', alike.results,
      .always fun _ => ⟨rfl, rfl⟩⟩
  | cons step steps ih =>
    intro s loud quiet sound alike alike' run finished acyclic
    obtain ⟨-, after⟩ := le_runStep note (n := n) step sound
    obtain ⟨here, others⟩ := List.forall_mem_cons.mp finished
    have before := acyclic.of_le (le_runSteps steps after)
    obtain ⟨o, u, first, alike₁, deep⟩ := alike_runStep step sound alike here before
    obtain ⟨o', u', first', alike₁', deep'⟩ := alike_runStep step sound alike' here before
    obtain ⟨os, os', v, v', answers, rest, last, results, deeper⟩ :=
      ih after alike₁ alike₁' others acyclic
    refine ⟨o :: os, o' :: os', v, v', ?_, .cons (first.between first') rest, last, results, ?_⟩
    · exact congrArg₂ List.cons first.answer answers
    · refine (deep.both deep' fun m => And.intro).both deeper fun m both all => ?_
      simp only [runSteps, both.1, both.2, all.1, all.2, and_self]

end Session

/-- Recording debug messages changes nothing but the trace, to which it adds messages. Take a run of
steps, with messages or without, that comes to an end, in which every name given to a parser is a
text or none at all, and that leaves no result list that can be reached from itself. At every depth
that is enough, the run with messages and the run without end step by step as it does, with the same
values and the same errors and after the same calls of functions in the same order, and they leave
the same result lists, cells and variables. -/
theorem messages_change_nothing_else (note : Value → List Value → Option Answer) (n : Nat)
    (runtime : Runtime) (steps : List Step) (x : Bool) :
    let start (debug : Bool) : Store := { Store.initial.under runtime with debug := debug }
    let seen := Session.runSteps (watched (.notingTexts note) n) steps (start x)
    (∀ outcome ∈ seen.1, outcome.answer ≠ .error .outOfFuel) → seen.2.results.Acyclic →
      Deep fun m =>
        let loud := Session.runSteps (watched (.noting note) m) steps (start true)
        let quiet := Session.runSteps (watched (.noting note) m) steps (start false)
        loud.1.map (·.answer) = seen.1.map (·.answer) ∧
          List.Forall₂ (Outcome.Alike true false) loud.1 quiet.1 ∧
          loud.2.Alike true false quiet.2 ∧ loud.2.results = seen.2.results := by
  intro start seen finished acyclic
  have sound : (start x).Sound .texts := (Store.sound_initial .texts runtime).congr rfl rfl rfl
  have alike (y : Bool) : Store.Alike x y (start x) (start y) :=
    ⟨rfl, rfl, rfl, .inl ⟨rfl, rfl⟩, .nil⟩
  obtain ⟨os, os', u, u', answers, each, last, results, deep⟩ :=
    Session.alike_runSteps steps sound (alike true) (alike false) finished acyclic
  refine deep.mono fun m same => ?_
  simp only [same.1, same.2]
  exact ⟨answers, each, last, results⟩

/-- A parser for one item, whose value is passed to a function, is used. -/
def mappedItem : Step :=
  ⟨.apply (.method .parse) [.apply (.method .map) [.apply (.make .item) [],
    .function [⟨"v", .standard, none⟩] (.variable "v")], .literal (.text ['a', 'b'])], none⟩

/-- Its run without messages, in which the call of the function is noted, is one that ends. -/
theorem mappedItem_unchanged_by_messages :
    let note : Value → List Value → Option Answer := fun _ _ => some .written
    let start (debug : Bool) : Store := { Store.initial.under .standard with debug := debug }
    let seen := Session.runSteps (watched (.notingTexts note) 6) [mappedItem] (start false)
    (∀ outcome ∈ seen.1, outcome.answer ≠ .error .outOfFuel) ∧ seen.2.results.Acyclic ∧
      Deep fun m =>
        List.Forall₂ (Outcome.Alike true false)
          (Session.runSteps (watched (.noting note) m) [mappedItem] (start true)).1
          (Session.runSteps (watched (.noting note) m) [mappedItem] (start false)).1 := by
  intro note start seen
  have ends : seen.1.all (fun outcome => outcome.answer.toBool) = true := rfl
  have finished : ∀ outcome ∈ seen.1, outcome.answer ≠ .error .outOfFuel := by
    intro outcome member out
    have value := List.all_eq_true.mp ends outcome member
    simp [out, Except.toBool] at value
  have results : seen.2.results = ⟨#[[⟨.text ['a'], .text ['b']⟩]], .standard⟩ := rfl
  have acyclic : seen.2.results.Acyclic := by
    rw [results]
    refine .of_flat fun address d member => ?_
    cases address with
    | zero =>
      cases List.mem_singleton.mp member
      exact ⟨rfl, rfl⟩
    | succ address => cases member
  refine ⟨finished, acyclic, ?_⟩
  exact (messages_change_nothing_else note 6 .standard [mappedItem] false finished acyclic).mono
    fun m same => same.2.1

end GrammarKit
