import GrammarKit.Proofs.Logging.Messages

/-! # Brackets in the log

While debug messages are recorded, a use of a parser writes one before and one after everything that
is written by the uses inside it. So the log of a use that has a value is well bracketed, and the
log of a use that has raised an error is the beginning of such a log.

Which uses an error has passed through cannot be seen in a log. So the run is compared with one in
which every use that passes an error on leaves a mark: the place where its own first message stands.
That run goes no further where a term writes to the log itself, appends to a result list, or gives a
parser a name that is no text.
-/

namespace GrammarKit

open Eval (afterwards)

/-! ## Logs -/

namespace Log

/-- The message before a parser is evaluated. -/
def tryingLine (shown read : List Char) : Answer :=
  .text ("trying ".toList ++ shown ++ " on ".toList ++ read)

/-- The message after a parser has been evaluated. -/
def producedLine (shown : List Char) (count : Nat) : Answer :=
  .text (shown ++ " produced ".toList ++ natText count ++ " derivation(s)".toList)

/-- The message after a lazy parser has got its definition from its factory. -/
def resolvedLine (shown : List Char) : Answer := .text ("resolved ".toList ++ shown)

/-- Whether there is a value that is shown like this. -/
def IsShown (shown : List Char) : Prop :=
  ∃ results n v, Value.display results n v = .ok shown

/-- Whether there are a parser that is shown like this and an input that begins like this where it
is shown. -/
def IsCall (shown read : List Char) : Prop :=
  ∃ results n p input text, Parser.isForeign p = false ∧
    Value.display results n (.parser p) = .ok shown ∧
    Value.display results n input = .ok text ∧ read = text.take 40

/-- Whether a log consists of complete logs of uses of parsers and of messages about definitions. -/
inductive Complete : List Answer → Prop where
  | nil : Complete []
  | resolved {shown : List Char} {log : List Answer} : IsShown shown → Complete log →
    Complete (resolvedLine shown :: log)
  | parsed {shown read : List Char} {inner log : List Answer} (count : Nat) : IsCall shown read →
    Complete inner → Complete log →
    Complete (tryingLine shown read :: inner ++ producedLine shown count :: log)

/-- Whether a log breaks off in the midst of uses of parsers, whose first messages stand at the
given places. -/
inductive Unfinished : List Answer → List Nat → Prop where
  | closed {log : List Answer} : Complete log → Unfinished log []
  | opened {shown read : List Char} {before after : List Answer} {places : List Nat} :
    Complete before → IsCall shown read → Unfinished after places →
    Unfinished (before ++ tryingLine shown read :: after)
      (before.length :: places.map (before.length + 1 + ·))

theorem Complete.append {log log' : List Answer} (first : Complete log) (second : Complete log') :
    Complete (log ++ log') := by
  induction first with
  | nil => exact second
  | resolved shown _ ih => exact .resolved shown ih
  | parsed count call inner _ _ ih =>
    have joined := Complete.parsed count call inner ih
    simpa using joined

namespace Unfinished

variable {log before : List Answer} {places : List Nat}

/-- What is complete may come before. -/
theorem after (complete : Complete before) (unfinished : Unfinished log places) :
    Unfinished (before ++ log) (places.map (before.length + ·)) := by
  cases unfinished with
  | closed complete' => exact .closed (complete.append complete')
  | opened complete' call inner =>
    have joined := Unfinished.opened (complete.append complete') call inner
    simpa [Nat.add_assoc, Function.comp_def] using joined

/-- A log that breaks off can be completed. -/
theorem exists_complete (unfinished : Unfinished log places) : ∃ rest, Complete (log ++ rest) := by
  induction unfinished with
  | closed complete => exact ⟨[], by simpa using complete⟩
  | @opened shown _ _ _ _ complete call _ ih =>
    obtain ⟨rest, inner⟩ := ih
    refine ⟨rest ++ [producedLine shown 0], ?_⟩
    have joined := complete.append (.parsed 0 call inner .nil)
    simpa using joined

end Unfinished

/-- The marks of uses whose first messages stand at the given places of a log that begins at
`start`: the innermost one comes first. -/
def marks (start : Nat) (places : List Nat) : List Answer :=
  places.reverse.map fun place : Nat => .int ↑(start + place)

theorem marks_map (start offset : Nat) (places : List Nat) :
    marks start (places.map (offset + ·)) = marks (start + offset) places := by
  simp [marks, Function.comp_def, Nat.add_assoc, ← List.map_reverse]

theorem marks_cons (start place : Nat) (places : List Nat) :
    marks start (place :: places) = marks start places ++ [.int ↑(start + place)] := by
  simp [marks]

end Log

/-! ## Evaluations -/

open Log MessageText

/-- Whether an evaluation leads from one store to another one without touching the result lists that
are there, and its log is complete. -/
structure Store.Talks (s t : Store) : Prop where
  runtime : t.results.runtime = s.results.runtime
  size : s.results.size ≤ t.results.size
  read : ∀ address, address < s.results.size → t.results.read address = s.results.read address
  debug : t.debug = s.debug
  log : ∃ log, Complete log ∧ t.trace.toList = s.trace.toList ++ log

/-- Whether an evaluation that began in one store has a log that breaks off, and is followed by the
marks of unfinished uses where these are recorded. -/
def Store.BreaksOff (s marked t : Store) : Prop :=
  ∃ log places, Unfinished log places ∧ t.trace.toList = s.trace.toList ++ log ∧
    marked.trace.toList = t.trace.toList ++ marks s.trace.size places

namespace Store.Talks

variable {s t u marked : Store}

theorem trans (first : s.Talks t) (second : t.Talks u) : s.Talks u where
  runtime := second.runtime.trans first.runtime
  size := Nat.le_trans first.size second.size
  read address inside := (second.read address (Nat.lt_of_lt_of_le inside first.size)).trans
    (first.read address inside)
  debug := second.debug.trans first.debug
  log := by
    obtain ⟨log, complete, trace⟩ := first.log
    obtain ⟨log', complete', trace'⟩ := second.log
    exact ⟨log ++ log', complete.append complete', by rw [trace', trace, List.append_assoc]⟩

/-- Nothing is written, and old result lists stay what they are. -/
theorem of_silent (runtime : t.results.runtime = s.results.runtime)
    (size : s.results.size ≤ t.results.size)
    (read : ∀ address, address < s.results.size →
      t.results.read address = s.results.read address)
    (debug : t.debug = s.debug) (trace : t.trace = s.trace) : s.Talks t :=
  ⟨runtime, size, read, debug, [], .nil, by rw [trace, List.append_nil]⟩

/-- Nothing is written, and nothing becomes of result lists. -/
theorem of_same (results : t.results = s.results) (debug : t.debug = s.debug)
    (trace : t.trace = s.trace) : s.Talks t :=
  of_silent (by rw [results]) (results ▸ Nat.le_refl _) (fun _ _ => by rw [results]) debug trace

theorem breaksOff (first : s.Talks t) (second : t.BreaksOff marked u) : s.BreaksOff marked u := by
  obtain ⟨log, complete, trace⟩ := first.log
  obtain ⟨log', places, unfinished, trace', last⟩ := second
  have size : t.trace.size = s.trace.size + log.length := by
    rw [← Array.length_toList, trace, List.length_append, Array.length_toList]
  refine ⟨log ++ log', _, unfinished.after complete, ?_, ?_⟩
  · rw [trace', trace, List.append_assoc]
  · rw [last, size, marks_map]

/-- More that is complete is written. -/
theorem write (talks : s.Talks t) {cs : List Char}
    {noted : Array (Nat × CellEvent) → Array (Nat × CellEvent)}
    (complete : Complete [.text cs]) : s.Talks (t.hear cs noted) :=
  talks.trans ⟨rfl, Nat.le_refl _, fun _ _ => rfl, rfl, _, complete, Array.toList_push⟩

/-- An evaluation that has written a complete log may be given up. -/
theorem given_up (talks : s.Talks t) : s.BreaksOff t t := by
  obtain ⟨log, complete, trace⟩ := talks.log
  exact ⟨log, [], .closed complete, trace, (List.append_nil _).symm⟩

end Store.Talks

/-- The pairing of evaluations that write to the log only by what they use. -/
def Pairing.brackets : Pairing where
  names := .texts
  Counts _ := True
  counts _ _ := trivial
  Coupled s t := s = t ∧ s.debug = true
  same := by
    rintro s _ ⟨rfl, -⟩
    exact ⟨rfl, rfl, rfl⟩
  Between s _ s' _ := s.Talks s'
  refl _ := .of_same rfl rfl rfl
  trans := Store.Talks.trans
  Failed s _ _ s' t' := s.BreaksOff s' t'
  failed := by
    rintro s _ - ⟨rfl, -⟩
    exact (Store.Talks.of_same rfl rfl rfl).given_up
  further := Store.Talks.breaksOff
  Exhausted _ _ := True
  exhausted := trivial
  beyond _ _ := trivial
  mayAppend := False
  mayTrace := False

namespace Pairing

variable {w : Nat} {ev : Evaluator} {E : Nat → Evaluator}

theorem brackets_resolve {address : Nat} {owner : Value}
    (tracks : brackets.comparison.Tracks ev E) (within : owner.Within (Names.texts.below w)) :
    brackets.Holds w (ev.resolve address owner) (fun m => (E m).resolve address owner)
      brackets.comparison.parser := by
  refine resolves tracks within ?_ ?_ (fun _ _ broken => broken) fun _ _ => trivial
  · rintro s _ ⟨rfl, loud⟩
    exact ⟨rfl, loud⟩
  rintro s _ u _ f q - ⟨rfl, -⟩ ⟨rfl, loud⟩ talks sound le -
  -- The store in which the definition is there.
  have same : ((u.note address .returned).settle address q).results = u.results :=
    Store.results_settle ..
  have settled : s.Talks ((u.note address .returned).settle address q) :=
    Store.Talks.trans (t := u) ⟨talks.runtime, talks.size, talks.read, talks.debug, talks.log⟩
      (.of_same same (Store.debug_settle ..) (Store.trace_settle ..))
  have recording : ((u.note address .returned).settle address q).debug = true :=
    (Store.debug_settle ..).trans loud
  generalize (u.note address .returned).settle address q = v at same settled recording ⊢
  have shows := MessageText.failsOnly_resolved (fun _ text => text) (same ▸ sound.results)
    (same ▸ within.mono (Names.texts.below_le le)) ev.fuel
  simp only [Evaluator.logResolved_eq_whenLoud, recording, Evaluator.whenLoud_true]
  rcases (Evaluator.tells_logResolved address owner).out_or_told shows tracks.fuel with
    out | ⟨cs, text, told, deep⟩
  · rw [Eval.bind_of_eq_error out]
    exact .exhausted trivial
  · rw [Eval.bind_of_eq_ok told]
    obtain ⟨shown, display, last⟩ := Except.bind_eq_ok_iff.mp text
    cases last
    refine .value ⟨rfl, recording⟩ (settled.write (.resolved ⟨_, _, _, display⟩ .nil)) ?_
    exact deep.mono fun m here => Eval.bind_of_eq_ok here _

theorem brackets_sustained : brackets.Sustained where
  push := by
    rintro s _ ds ⟨rfl, loud⟩
    refine ⟨⟨rfl, loud⟩, .of_silent rfl ?_ (fun address inside => ?_) rfl rfl⟩
    · simp
    · rw [Results.read_push, if_neg (Nat.ne_of_lt inside)]
  extend := nofun
  addCell := by
    rintro s _ factory ⟨rfl, loud⟩
    exact ⟨⟨rfl, loud⟩, .of_same rfl rfl rfl⟩
  settle := by
    rintro s _ address q - ⟨rfl, loud⟩
    exact ⟨⟨rfl, (s.debug_settle address q).trans loud⟩,
      .of_same (s.results_settle ..) (s.debug_settle ..) (s.trace_settle ..)⟩
  trace := nofun
  assign := by
    rintro s _ name v ⟨rfl, loud⟩
    exact ⟨⟨rfl, loud⟩, .of_same rfl rfl rfl⟩
  loud := by
    rintro s _ ⟨rfl, loud⟩
    exact ⟨rfl, rfl⟩
  loudValue := by
    rintro s _ s' _ ⟨rfl, loud⟩ ⟨rfl, -⟩ talks
    exact ⟨⟨rfl, loud⟩, talks.runtime, talks.size, talks.read, rfl, talks.log⟩
  loudError _ broken := broken
  loudExhausted _ _ := trivial
  resolve := brackets_resolve

end Pairing

/-- Leaves a mark where an error comes out of an evaluation: how long the trace was before. -/
def Store.marking {α : Type} (x : Eval α) : Eval α := fun s =>
  match x s with
  | .error (.error e) t => .error (.error e) { t with trace := t.trace.push (.int s.trace.size) }
  | r => r

theorem Eval.Sound.marking {α : Type} {names : Names} {w : Nat} {x : Eval α}
    {Q : Nat → α → Prop} (sound : Eval.Sound names w x Q) :
    Eval.Sound names w (Store.marking x) Q := by
  intro s size start
  obtain ⟨keeps, after, value⟩ := sound s size start
  unfold Store.marking
  cases found : x s with
  | ok a t =>
    rw [found] at keeps after value
    exact ⟨keeps, after, value⟩
  | error stop t =>
    rw [found] at keeps after
    cases stop with
    | outOfFuel => exact ⟨keeps, after, nofun⟩
    | error e => exact ⟨⟨keeps.results, keeps.debug⟩, after.congr rfl rfl rfl, nofun⟩

/-- Leaves a mark wherever an error passes through a use of a parser, and goes no further where a
term writes to the log itself, appends to a result list, or gives a parser a name that is no text.
-/
def Watch.bracketing : Watch where
  parse ev p input := if p.isForeign then ev.use p input else Store.marking (ev.use p input)
  operation ev operation arguments :=
    if operation.appends arguments || operation.misnames arguments then throw .outOfFuel
    else ev.applyOperation operation arguments
  record _ := throw .outOfFuel

/-- How a use of a parser ends in the run that leaves marks, and how it does in a family of runs
without them from some depth on. -/
inductive Bracketed (s : Store) (p : Parser) (input : Value)
    (y : Nat → EStateM.Result Stop Store (List Derivation)) :
    EStateM.Result Stop Store (List Derivation) → Prop where
  /-- With a value: the log is complete, and it begins and ends with the messages of this use. -/
  | value {found : List Derivation} {t : Store} {shown read : List Char} {inner : List Answer} :
    (Deep fun n => Value.display s.results.unlimited n (.parser p) = .ok shown) →
    (Deep fun n => Value.display s.results.unlimited n input = .ok read) →
    Complete inner →
    t.trace.toList = s.trace.toList ++
      (tryingLine shown (read.take 40) :: inner ++ [producedLine shown found.length]) →
    (Deep fun m => y m = .ok found t) → Bracketed s p input y (.ok found t)
  /-- With an error: the log is the beginning of a complete one, and the uses of parsers that it
  breaks off are those that have left a mark, this one among them. -/
  | error {e : Error} {marked t : Store} {shown read : List Char} {inner rest : List Answer}
    {places : List Nat} :
    (Deep fun n => Value.display s.results.unlimited n (.parser p) = .ok shown) →
    (Deep fun n => Value.display s.results.unlimited n input = .ok read) →
    Unfinished inner places → Complete (inner ++ rest) →
    t.trace.toList = s.trace.toList ++ (tryingLine shown (read.take 40) :: inner) →
    marked.trace.toList = t.trace.toList ++ marks s.trace.size (0 :: places.map (1 + ·)) →
    (Deep fun m => y m = .error (.error e) t) → Bracketed s p input y (.error (.error e) marked)
  /-- The depth of the run is used up, or it goes no further. -/
  | exhausted {t : Store} : Bracketed s p input y (.error .outOfFuel t)

/-- Whether a use of a parser has been announced, and is so at every depth that is enough. -/
structure Announced (ev : Evaluator) (E : Nat → Evaluator) (p : Parser) (input : Value)
    (shown read : List Char) (s t : Store) : Prop where
  actual : p.isForeign = false
  showsParser : Value.display s.results.unlimited ev.fuel (.parser p) = .ok shown
  showsInput : Value.display s.results.unlimited ev.fuel input = .ok read
  told : ev.logTrying p input s = .ok () t
  deep : Deep fun m => (E m).logTrying p input s = .ok () t
  trace : t.trace = s.trace.push (tryingLine shown (read.take 40))
  results : t.results = s.results
  cells : t.cells = s.cells
  globals : t.globals = s.globals
  debug : t.debug = s.debug

namespace Announced

variable {ev : Evaluator} {E : Nat → Evaluator} {p : Parser} {input : Value}
  {shown read : List Char} {s t u : Store}

/-- Where names are texts a use is announced, unless the depth is used up. -/
theorem out_or_announced (deeper : Deep fun m => ev.fuel ≤ (E m).fuel)
    (actual : p.isForeign = false) (sound : s.Sound .texts)
    (parser : p.Within (Names.texts.below s.results.size))
    (within : input.Within (Names.texts.below s.results.size)) :
    ev.logTrying p input s = .error .outOfFuel s ∨
      ∃ shown read t, Announced ev E p input shown read s t := by
  have shows := failsOnly_trying (fun _ text => text) sound.results parser within ev.fuel
  refine ((Evaluator.tells_logTrying p input).out_or_told shows deeper).imp_right ?_
  rintro ⟨cs, text, told, deep⟩
  obtain ⟨shown, first, rest⟩ := Except.bind_eq_ok_iff.mp text
  obtain ⟨read, second, last⟩ := Except.bind_eq_ok_iff.mp rest
  cases last
  exact ⟨shown, read, _, actual, first, second, told, deep, rfl, rfl, rfl, rfl, rfl⟩

variable (announced : Announced ev E p input shown read s t)

include announced

theorem isCall : IsCall shown (read.take 40) :=
  ⟨_, _, _, _, _, announced.actual, announced.showsParser, announced.showsInput, rfl⟩

/-- If what is used has a value, the last message is told. -/
theorem value (deeper : Deep fun m => ev.fuel ≤ (E m).fuel) (sound : s.Sound .texts)
    (parser : p.Within (Names.texts.below s.results.size)) {found : List Derivation}
    (talks : t.Talks u) (ran : ev.produce p input t = .ok found u)
    (deep : Deep fun m => (E m).produce p input t = .ok found u) :
    ∃ v, Evaluator.useWith true ev p input s = .ok found v ∧ s.Talks v ∧
      Bracketed s p input (fun m => Evaluator.useWith true (E m) p input s) (.ok found v) := by
  obtain ⟨inner, complete, trace⟩ := talks.log
  -- Nothing has been appended to the result lists since, so the parser is shown as before.
  have agree : s.results.Agree (Names.texts.below s.results.size) u.results := by
    refine ⟨talks.runtime.trans (congrArg _ announced.results), fun address inside => ?_⟩
    rw [talks.read address (announced.results ▸ inside), announced.results]
  have same : Value.display u.results.unlimited ev.fuel (.parser p) = .ok shown :=
    (Value.local_describe (v := .parser p) ev.fuel parser _ _ sound.results agree).trans
      announced.showsParser
  have text : produced p found.length u.results ev.fuel =
      .ok (shown ++ " produced ".toList ++ natText found.length ++ " derivation(s)".toList) := by
    rw [produced, same]
    rfl
  obtain ⟨told, deep'⟩ := (Evaluator.tells_logProduced p found.length).told text deeper
  have log : (u.trace.push (producedLine shown found.length)).toList = s.trace.toList ++
      (tryingLine shown (read.take 40) :: inner ++ [producedLine shown found.length]) := by
    rw [Array.toList_push, trace, announced.trace, Array.toList_push]
    simp
  refine ⟨_, Evaluator.useWith_of_ok announced.told ran told, ⟨agree.runtime, ?_,
    fun address inside => ?_, talks.debug.trans announced.debug, _,
    .parsed _ announced.isCall complete .nil, log⟩,
    .value (deep_display announced.showsParser) (deep_display announced.showsInput) complete log ?_⟩
  · exact announced.results ▸ talks.size
  · exact (talks.read address (announced.results ▸ inside)).trans (by rw [announced.results])
  · exact (announced.deep.both deep fun m => And.intro).both deep' fun m both here =>
      Evaluator.useWith_of_ok both.1 both.2 here

/-- If what is used raises an error, the last message is missing. -/
theorem error {e : Error} {marked : Store} (broken : t.BreaksOff marked u)
    (ran : ev.produce p input t = .error (.error e) marked)
    (deep : Deep fun m => (E m).produce p input t = .error (.error e) u) :
    let last : Store := { marked with trace := marked.trace.push (.int s.trace.size) }
    Evaluator.useWith true ev p input s = .error (.error e) marked ∧ s.BreaksOff last u ∧
      (Deep fun m => Evaluator.useWith true (E m) p input s = .error (.error e) u) ∧
      Bracketed s p input (fun m => Evaluator.useWith true (E m) p input s)
        (.error (.error e) last) := by
  obtain ⟨inner, places, unfinished, trace, passed⟩ := broken
  obtain ⟨rest, complete⟩ := unfinished.exists_complete
  have log : u.trace.toList = s.trace.toList ++ (tryingLine shown (read.take 40) :: inner) := by
    rw [trace, announced.trace, Array.toList_push]
    simp
  have left : (marked.trace.push (.int s.trace.size)).toList =
      u.trace.toList ++ marks s.trace.size (0 :: places.map (1 + ·)) := by
    rw [Array.toList_push, passed, announced.trace, Array.size_push, marks_cons, marks_map]
    simp
  have ends : Deep fun m => Evaluator.useWith true (E m) p input s = .error (.error e) u :=
    announced.deep.both deep fun m => Evaluator.useWith_of_error
  have opened := Unfinished.opened .nil announced.isCall unfinished
  refine ⟨Evaluator.useWith_of_error announced.told ran, ⟨_, _, ?_, log, left⟩, ends,
    .error (deep_display announced.showsParser) (deep_display announced.showsInput) unfinished
      complete log left ends⟩
  simpa using opened

end Announced

namespace Pairing

variable {ev : Evaluator} {E : Nat → Evaluator}

/-- Uses that leave marks are bracketed if the evaluations within them are. -/
theorem brackets_marking (tracks : brackets.comparison.Tracks ev E) {p : Parser} {input : Value}
    {s : Store} (actual : p.isForeign = false)
    (parser : p.Within (Names.texts.below s.results.size))
    (within : input.Within (Names.texts.below s.results.size)) (sound : s.Sound .texts)
    (loud : s.debug = true) :
    let r := Store.marking (ev.use p input) s
    let y := fun m => (E m).use p input s
    Bracketed s p input y r ∧ brackets.Ends s s y r := by
  simp only [Store.marking, Evaluator.use_apply actual, loud]
  rcases Announced.out_or_announced tracks.fuel actual sound parser within with
    out | ⟨shown, read, t, announced⟩
  · rw [Evaluator.useWith, Evaluator.whenLoud_true, Eval.bind_of_eq_error out]
    exact ⟨.exhausted, .exhausted trivial⟩
  have size : t.results.size = s.results.size := by rw [announced.results]
  have inside := (brackets_sustained.lawful.produce tracks parser within).2 t t size
    (sound.congr announced.results announced.cells announced.globals)
    ⟨rfl, announced.debug.trans loud⟩ trivial
  generalize ran : ev.produce p input t = r at inside
  cases inside with
  | @value found u _ coupled talks deep =>
    obtain ⟨rfl, -⟩ := coupled
    obtain ⟨v, used, talks', bracketed⟩ :=
      announced.value tracks.fuel sound parser talks ran deep
    rw [used]
    refine ⟨bracketed, ?_⟩
    cases bracketed with
    | value _ _ _ _ ends => exact .value ⟨rfl, talks'.debug.trans loud⟩ talks' ends
  | error broken deep =>
    obtain ⟨used, broken', ends, bracketed⟩ := announced.error broken ran deep
    rw [used]
    exact ⟨bracketed, .error broken' ends⟩
  | exhausted =>
    rw [Evaluator.useWith_of_error announced.told ran]
    exact ⟨.exhausted, .exhausted trivial⟩

theorem brackets_respects : brackets.comparison.Respects .bracketing {} where
  parse := by
    intro w ev E p input tracks parser read
    by_cases foreign : p.isForeign = true
    · simp only [Watch.bracketing, Evaluator.use, if_pos foreign]
      exact Holds.raise _
    have actual : p.isForeign = false := by simpa using foreign
    simp only [Watch.bracketing, actual, Bool.false_eq_true, if_neg, not_false_eq_true]
    constructor
    · exact .marking (.use (brackets_sustained.lawful.produce tracks parser read).1)
    · rintro s _ rfl sound ⟨rfl, loud⟩ -
      exact (brackets_marking tracks actual parser read sound loud).2
  call tracks function all := brackets_sustained.lawful.apply tracks function all
  operation := by
    intro w ev E operation arguments tracks all
    by_cases beyond : (operation.appends arguments || operation.misnames arguments) = true
    · simp only [Watch.bracketing, if_pos beyond]
      exact brackets_sustained.lawful.outOfFuel
    · simp only [Watch.bracketing, if_neg beyond]
      simp only [Bool.or_eq_true, not_or, Bool.not_eq_true] at beyond
      refine brackets_sustained.lawful.applyOperation tracks all ?_
      exact Comparison.admits_of (fun cs => ⟨cs, rfl⟩) (by simp [beyond.1]) beyond.2
  record _ := brackets_sustained.lawful.outOfFuel

theorem brackets_tracks (n : Nat) :
    brackets.comparison.Tracks (watched .bracketing n) fun m => evaluator m := by
  simpa only [watched_plain] using brackets_sustained.lawful.tracks brackets_respects n

end Pairing

/-- The debug log is well bracketed. Take a use of a parser while debug messages are recorded, in a
store in which every name of a parser is a text, and follow it as long as no term writes to the log
itself, appends to a result list or gives a parser a name that is no text. If it has a value, so it
has at every depth that is enough, and what it writes to the log is its first message, complete logs
of other uses and messages about definitions, and its last message. If it raises an error, so it
does at every depth that is enough, and what it writes is the beginning of such a log: the messages
of the uses that are not closed are those of the uses that the error has passed through. -/
theorem log_is_bracketed (n : Nat) {s : Store} {p : Parser} {input : Value}
    (actual : p.isForeign = false) (sound : s.Sound .texts) (loud : s.debug = true)
    (parser : p.Within (Names.texts.below s.results.size))
    (read : input.Within (Names.texts.below s.results.size)) :
    Bracketed s p input (fun m => (evaluator m).parse p input s)
      ((watched .bracketing n).parse p input s) := by
  cases n with
  | zero => exact .exhausted
  | succ n =>
    obtain ⟨bracketed, -⟩ :=
      Pairing.brackets_marking (Pairing.brackets_tracks n) actual parser read sound loud
    have used : (watched .bracketing (n + 1)).parse p input s =
        Store.marking ((watched .bracketing n).use p input) s := by
      simp only [watched, Watch.bracketing, actual, Bool.false_eq_true, if_neg, not_false_eq_true]
    rw [used]
    generalize Store.marking ((watched .bracketing n).use p input) s = r at bracketed
    -- A use at some depth is what parsing comes to one step further up.
    cases bracketed with
    | value shown text complete log deep => exact .value shown text complete log deep.of_succ
    | error shown text unfinished complete log passed deep =>
      exact .error shown text unfinished complete log passed deep.of_succ
    | exhausted => exact .exhausted

/-- A parser for one item or what a lazy parser is defined to be, in a store in which this has not
been defined. -/
def itemOrUndefined : Parser := Parser.item.orElse [.parser (.ofShape (.lazy 1))]

/-- One item is read; on the empty text, the error comes out of the lazy parser and its use inside
the first one, whose messages are the fourth one and the first one. -/
theorem itemOrUndefined_is_bracketed :
    let s := Store.addCell none { Store.initial with debug := true }
    let use (cs : List Char) := (watched .bracketing 4).parse itemOrUndefined (.text cs) s
    (∃ t, use ['a'] = .ok [⟨.text ['a'], .text []⟩] t ∧
      Bracketed s itemOrUndefined (.text ['a'])
        (fun m => (evaluator m).parse itemOrUndefined (.text ['a']) s)
        (.ok [⟨.text ['a'], .text []⟩] t)) ∧
    ∃ marked, use [] = .error (.error .notDefined) marked ∧
      marked.trace.toList.drop 4 = [.int 3, .int 0] ∧
      Bracketed s itemOrUndefined (.text [])
        (fun m => (evaluator m).parse itemOrUndefined (.text []) s)
        (.error (.error .notDefined) marked) := by
  intro s use
  have sound : s.Sound .texts :=
    ((Store.sound_initial .texts {}).congr rfl rfl rfl : Store.Sound .texts
      { Store.initial with debug := true }).addCell trivial
  have parser : itemOrUndefined.Within (Names.texts.below s.results.size) := by
    simp [itemOrUndefined]
  have bracketed (cs : List Char) : Bracketed s itemOrUndefined (.text cs)
      (fun m => (evaluator m).parse itemOrUndefined (.text cs) s) (use cs) :=
    log_is_bracketed 4 rfl sound rfl parser trivial
  exact ⟨⟨_, rfl, bracketed ['a']⟩, _, rfl, rfl, bracketed []⟩

end GrammarKit
