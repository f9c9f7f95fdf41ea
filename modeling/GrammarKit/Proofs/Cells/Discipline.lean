import GrammarKit.Proofs.Cells.Kept
import GrammarKit.Proofs.Comparison.Pairing
import GrammarKit.Proofs.Parts

/-! # How cells are used

Whatever terms do with lazy parsers, in whatever order and from inside whatever callback, every cell
lives its life: the changes of the store of which evaluations consist are those that a cell allows.
-/

namespace GrammarKit

open Eval (afterwards)

/-- The pairing of evaluations with themselves that speaks of cells. If all names are texts, only
the depth can be in the way of a message. -/
def Pairing.cells (texts : Bool) : Pairing where
  names := if texts then .texts else .any
  Counts _ := True
  counts _ _ := trivial
  Coupled s t := s = t
  same := by
    rintro s _ rfl
    exact ⟨rfl, rfl, rfl⟩
  Between s _ s' _ := s.Tends False s'
  refl _ := .refl _
  trans := Store.Tends.trans
  Failed s _ _ s' _ := s.Tends (texts = false) s'
  failed _ _ := .refl _
  further := Store.Tends.after
  Exhausted s s' := s.Tends True s'
  exhausted := .refl _
  beyond := Store.Tends.after
  mayAppend := True
  mayTrace := True

namespace Pairing

variable {texts : Bool} {w : Nat} {ev : Evaluator} {E : Nat → Evaluator}

/-- What is the same for cells is carried. -/
private theorem carries_cells {f : Store → Store}
    (same : ∀ s, (f s).history = s.history ∧ (f s).cells = s.cells ∧ (f s).debug = s.debug)
    {s t : Store} (coupled : (cells texts).Coupled s t) : (cells texts).Carries f s t := by
  cases coupled
  exact ⟨rfl, .of_same (same s).1 (same s).2.1 (same s).2.2⟩

/-- Where all names are texts, everything can be shown. -/
private theorem texts_eq_false_of_display {v : Value} {s : Store} {n : Nat} {e : Error}
    (sound : s.Sound (cells texts).names)
    (within : v.Within ((cells texts).names.below s.results.size))
    (fails : v.display s.results.unlimited n = .error (.error e)) : texts = false := by
  cases texts with
  | false => rfl
  | true =>
    exact absurd fails (Value.display_ne_error (fun _ text => text) sound.results n within e)

/-- After a factory has returned, this is told, if anything is. -/
private theorem cells_told {address : Nat} {owner : Value} {q : Parser} {s t : Store}
    (fuel : Deep fun m => ev.fuel ≤ (E m).fuel) (resolved : s.Tends (s.debug = true) t)
    (shows : ∀ e, owner.display t.results.unlimited ev.fuel = .error (.error e) → texts = false)
    (told : ∀ trace, s.Tends False ({ t with trace := trace }.note address .told)) :
    (cells texts).Ends s s
      (fun m =>
        (do if (← get).debug then (E m).logResolved address owner
            return q : Eval Parser) t)
      ((do if (← get).debug then ev.logResolved address owner
           return q : Eval Parser) t) := by
  simp only [Evaluator.logResolved_apply]
  by_cases debug : t.debug = true
  · simp only [if_pos debug]
    have sooner : Deep fun m => Sooner (owner.display t.results.unlimited ev.fuel)
        (owner.display t.results.unlimited (E m).fuel) :=
      fuel.mono fun _ le => Value.sooner_display le owner
    cases shown : owner.display t.results.unlimited ev.fuel with
    | ok text =>
      refine .value rfl (told _) (sooner.mono fun m sooner => ?_)
      rw [← sooner.resolve_left (by simp [shown]), shown]
    | error stop =>
      cases stop with
      | outOfFuel => exact .exhausted (resolved.mono fun _ _ => trivial)
      | error e =>
        have failed : (cells texts).Failed s s e t t := resolved.mono fun _ _ => shows e shown
        refine .error failed (sooner.mono fun m sooner => ?_)
        rw [← sooner.resolve_left (by simp [shown]), shown]
  · simp only [if_neg debug]
    have quiet : ¬s.debug = true := resolved.debug ▸ debug
    exact .value rfl (resolved.mono fun loud _ => quiet loud) (.always fun _ => rfl)

theorem cells_resolve {address : Nat} {owner : Value}
    (tracks : (cells texts).comparison.Tracks ev E)
    (within : owner.Within ((cells texts).names.below w)) :
    (cells texts).Holds w (ev.resolve address owner) (fun m => (E m).resolve address owner)
      (cells texts).comparison.parser := by
  refine resolves tracks within (fun coupled => ?_) ?_ (fun waiting _ failed => ?_)
    fun waiting after => after.failed waiting
  · rw [coupled]
    rfl
  · rintro s _ u _ f q waiting rfl rfl between sound grown -
    have results := (u.note address .returned).results_settle address q
    refine cells_told tracks.fuel (.resolved waiting between) (fun e fails => ?_) fun trace =>
      .told waiting between trace
    rw [results] at fails
    exact texts_eq_false_of_display sound (within.mono ((cells texts).names.below_le grown)) fails
  · exact failed.failed waiting

theorem cells_uses : (cells texts).comparison.Uses := by
  intro w ev E q input grows _ _ produced
  have fuel := grows ev.fuel
  have log {w : Nat} (message : List Char) : (cells texts).Holds w (Evaluator.log message)
      (fun _ => Evaluator.log message) fun w' _ => w' = w :=
    Holds.step (f := fun _ => ()) (fun _ => rfl) (.log message) (fun _ => rfl)
      (carries_cells (by exact fun _ => ⟨rfl, rfl, rfl⟩))
  unfold Evaluator.use
  split
  · exact .raise _
  refine Holds.branch (fun coupled => congrArg Store.debug (Eq.symm coupled)) ?_
    (produced w (Nat.le_refl w))
  refine Holds.bind (P := fun w' _ => w' = w) ?_ fun w' _ _ same => ?_
  · refine (Holds.describe fuel _).bind fun w' shown _ same => ?_
    refine (Holds.describe fuel _).bind fun w'' read _ same' => ?_
    exact (log _).mono fun _ _ _ same'' => same''.trans (same'.trans same)
  subst same
  refine (produced w' (Nat.le_refl w')).bind fun w'' found _ all => ?_
  refine Holds.bind (P := fun w₃ _ => w₃ = w'') ?_ fun w₃ _ _ same => .pure (same ▸ all)
  refine (Holds.describe fuel _).bind fun w₃ shown _ same => ?_
  exact (log _).mono fun _ _ _ same' => same'.trans same

/-- Evaluations sustain the lives of cells. -/
theorem cells_sustained : (cells texts).Sustained where
  push _ coupled := carries_cells (by exact fun _ => ⟨rfl, rfl, rfl⟩) coupled
  extend _ _ _ _ _ coupled := carries_cells (by exact fun _ => ⟨rfl, rfl, rfl⟩) coupled
  addCell factory coupled := by
    cases coupled
    exact ⟨rfl, .addCell _ factory⟩
  settle address q undefined coupled := by
    cases coupled
    exact ⟨rfl, .given undefined⟩
  trace _ _ _ _ coupled := carries_cells (by exact fun _ => ⟨rfl, rfl, rfl⟩) coupled
  assign _ _ coupled := carries_cells (by exact fun _ => ⟨rfl, rfl, rfl⟩) coupled
  loud coupled := by
    cases coupled
    rfl
  loudValue coupled coupled' between := by
    cases coupled
    cases coupled'
    exact ⟨rfl, between.loud⟩
  loudError _ failed := failed.loud
  loudExhausted _ after := after.loud
  resolve := cells_resolve

theorem cells_tracks (n : Nat) :
    (cells false).comparison.Tracks (evaluator n) fun m => evaluator m := by
  have lawful : (cells false).comparison.Lawful := cells_sustained.lawful
  exact lawful.tracks_evaluator cells_uses trivial trivial (fun _ => trivial) n

/-- The same for evaluators that go no further where a parser would get a name that is no text. -/
theorem cells_tracks_texts (n : Nat) :
    (cells true).comparison.Tracks (watched .texts n) fun m => evaluator m := by
  have lawful : (cells true).comparison.Lawful := cells_sustained.lawful
  have respects : (cells true).comparison.Respects .texts {} :=
    ⟨fun tracks parser read => lawful.parse cells_uses tracks parser read,
      fun tracks function all => lawful.apply tracks function all,
      fun tracks all => lawful.operation_texts trivial (fun cs => ⟨cs, rfl⟩) tracks all,
      fun _ => lawful.record trivial⟩
  simpa only [watched_plain] using lawful.tracks respects n

end Pairing

/-! ## Runs -/

namespace Session

/-- Whether all names that parsers get in a run are texts: the run is the same if it goes no further
where a parser would get another name. -/
def NamesTexts (n : Nat) (steps : List Step) (s : Store) : Prop :=
  runSteps (watched .texts n) steps s = runSteps (evaluator n) steps s

section

variable {texts : Bool} {ev : Evaluator} {E : Nat → Evaluator}
  (tracks : (Pairing.cells texts).comparison.Tracks ev E)

include tracks

/-- Steps keep to the lives of cells. -/
theorem tends_runStep (step : Step) {s : Store} (sound : s.Sound (Pairing.cells texts).names) :
    let run := runStep ev step s
    s.Tends (texts = false ∨ run.1.answer = .error .outOfFuel) run.2 ∧
      run.2.Sound (Pairing.cells texts).names := by
  have start : Store.Sound (Pairing.cells texts).names { s with trace := #[] } :=
    sound.congr rfl rfl rfl
  have holds := Pairing.cells_sustained.evaluate (w := s.results.size) tracks step
  obtain ⟨-, after, -⟩ := holds.1 { s with trace := #[] } rfl start
  have ends := holds.2 { s with trace := #[] } _ rfl start rfl trivial
  have same : s.Tends False { s with trace := #[] } := .of_same rfl rfl rfl
  simp only [runStep]
  generalize evaluate ev step { s with trace := #[] } = r at after ends
  cases ends with
  | value _ between _ => exact ⟨same.after (between.mono fun _ => False.elim), after⟩
  | error failed _ => exact ⟨same.after (failed.mono fun _ => .inl), after⟩
  | exhausted after' => exact ⟨same.after (after'.mono fun _ _ => .inr rfl), after⟩

/-- Runs keep to the lives of cells. -/
theorem tends_runSteps (steps : List Step) : ∀ {s : Store}, s.Sound (Pairing.cells texts).names →
    let run := runSteps ev steps s
    s.Tends (texts = false ∨ ∃ outcome ∈ run.1, outcome.answer = .error .outOfFuel) run.2 ∧
      run.2.Sound (Pairing.cells texts).names := by
  induction steps with
  | nil => exact fun sound => ⟨.refl _, sound⟩
  | cons step steps ih =>
    intro s sound
    obtain ⟨first, after⟩ := tends_runStep tracks step sound
    obtain ⟨others, after'⟩ := ih after
    refine ⟨?_, after'⟩
    have here := first.mono fun _ excuse => excuse.imp_right fun exhausted => Exists.intro
      (p := fun outcome => outcome ∈ (runSteps ev (step :: steps) s).1 ∧
        outcome.answer = .error .outOfFuel) _ ⟨List.mem_cons_self, exhausted⟩
    refine here.trans (others.mono fun _ => Or.imp_right ?_)
    rintro ⟨outcome, member, exhausted⟩
    exact ⟨outcome, List.mem_cons_of_mem _ member, exhausted⟩

end

end Session

/-- In the store in which everything begins, the only cell waits for its first use. -/
theorem Store.lively_initial (runtime : Runtime) : (Store.initial.under runtime).Lively where
  life address inside := by
    obtain rfl : address = 0 := Nat.lt_one_iff.mp inside
    exact .inl (.made _)
  nothing address beyond := by
    have other : (Parser.expressionCell == address) = false := by
      simp only [beq_eq_false_iff_ne, ne_eq]
      rintro rfl
      exact absurd (show 1 ≤ 0 from beyond) (by decide)
    simp only [Store.eventsOf, Store.under, Store.initial, List.filter_cons, other]
    rfl

/-- What has become of the cells after a run that led from one store to another one. -/
structure Store.Disciplined (s t : Store) : Prop where
  /-- Every cell has its life, and holds what it should after it. -/
  life : ∀ address, address < t.cells.size → Cell.Life (t.eventsOf address) (t.cellAt address)
  /-- No factory has returned twice. -/
  returned : ∀ address, (t.eventsOf address).countP CellEvent.isReturned ≤ 1
  /-- Definitions have not changed. -/
  definition : ∀ address p, (s.cellAt address).definition = some p →
    (t.cellAt address).definition = some p

/-- What the operations on a cell do in any store. -/
structure Evaluator.MindsCells (ev : Evaluator) : Prop where
  shared : ∀ (p : Parser) (address : Nat) (v : Value), p.shape = .lazy address →
    p.copy.shape = .lazy address ∧ (p.map v).shape = .lazy address ∧
      (p.named v).shape = .lazy address
  /-- A definition is refused exactly where there is a factory or a definition. -/
  define_raises : ∀ (s : Store) (address : Nat) (v : Value),
    (∃ stop t, Evaluator.define address v s = .error stop t) ↔
    ((s.cellAt address).factory.isSome ∨ (s.cellAt address).definition.isSome)
  define_raised : ∀ (s : Store) (address : Nat) (v : Value) (stop : Stop) (t : Store),
    Evaluator.define address v s = .error stop t →
    (∃ e, stop = .error e ∧ e.message? = some "Lazy parser is already defined.".toList) ∧ t = s
  define_given : ∀ (s : Store) (address : Nat) (v : Value), address < s.cells.size →
    s.cellAt address = ⟨none, none⟩ → ∃ t, Evaluator.define address v s = .ok () t ∧
      t.cellAt address = ⟨none, some (Parser.asParser v)⟩
  resolve_defined : ∀ (s : Store) (address : Nat) (p : Parser) (owner : Value),
    (s.cellAt address).definition = some p →
    ev.resolve address owner s = .ok p s
  resolve_undefined : ∀ (s : Store) (address : Nat) (owner : Value),
    s.cellAt address = ⟨none, none⟩ →
    ∃ e, ev.resolve address owner s = .error (.error e) s ∧
      e.message? = some "Lazy parser used before being defined.".toList
  parse_undefined : ∀ (s t : Store) (p : Parser) (input : Value) (address : Nat),
    p.shape = .lazy address →
    s.cellAt address = ⟨none, none⟩ → ev.Announces p input s t →
      (∃ e, ev.use p input s = .error (.error e) t ∧
        e.message? = some "Lazy parser used before being defined.".toList) ∧
      t.cellAt address = ⟨none, none⟩
  /-- The factory is called, and what it returns is told of while debug messages are recorded. -/
  resolve_waiting : ∀ (s : Store) (address : Nat) (f owner : Value),
    s.cellAt address = ⟨some f, none⟩ →
    ev.resolve address owner s =
      match ev.call f ([owner].take (f.arity 1)) (s.note address .called) with
      | .error stop u => .error stop (u.note address .failed)
      | .ok v u =>
        let t := (u.note address .returned).settle address (Parser.asParser v)
        if t.debug then
          match owner.display t.results.unlimited ev.fuel with
          | .ok text =>
            .ok (Parser.asParser v)
              ({ t with trace := t.trace.push (.text ("resolved ".toList ++ text)) }.note
                address .told)
          | .error stop => .error stop t
        else .ok (Parser.asParser v) t
  parse_raised : ∀ (s t u : Store) (p : Parser) (input : Value) (address : Nat) (f : Value)
    (stop : Stop), p.shape = .lazy address →
    s.cellAt address = ⟨some f, none⟩ → ev.Announces p input s t →
    ev.call f ([.parser p].take (f.arity 1)) (t.note address .called) = .error stop u →
      ev.use p input s = .error stop (u.note address .failed)

/-- Evaluators of every depth mind the cells. -/
theorem Evaluator.mindsCells (ev : Evaluator) : ev.MindsCells where
  shared p address v shape := by
    obtain ⟨_, mapping, name⟩ := p
    cases shape
    exact ⟨rfl, rfl, rfl⟩
  define_raises s address v := by
    rw [define_apply, ← Bool.or_eq_true, Bool.or_comm]
    split
    · next given => exact ⟨fun _ => given, fun _ => ⟨_, _, rfl⟩⟩
    · next given => exact ⟨nofun, fun some => absurd some given⟩
  define_raised s address v stop t raised := by
    rw [define_apply] at raised
    split at raised
    · cases raised
      exact ⟨⟨_, rfl, rfl⟩, rfl⟩
    · cases raised
  define_given s address v inside neither := by
    refine ⟨s.settle address (Parser.asParser v), ?_, ?_⟩
    · rw [define_apply, neither]
      rfl
    · rw [Store.cellAt_settle_self inside, neither]
  resolve_defined s address p owner defined := resolve_of_defined defined ev owner
  resolve_undefined s address owner neither := ⟨_, resolve_of_neither neither ev owner, rfl⟩
  parse_undefined s t p input address shape neither announces := by
    obtain ⟨trace, rfl⟩ := announces.traced
    have unresolved : Store.cellAt { s with trace := trace } address = ⟨none, none⟩ := neither
    refine ⟨⟨.notDefined, use_of_raised ?_ announces ?_, rfl⟩, neither⟩
    · obtain ⟨_, mapping, name⟩ := p
      cases shape
      rfl
    · rw [process_of_lazy shape]
      exact Eval.bind_of_eq_error (resolve_of_neither unresolved ev _) _
  resolve_waiting s address f owner waiting := resolve_of_waiting waiting ev owner
  parse_raised s t u p input address f stop shape waiting announces raised := by
    obtain ⟨trace, rfl⟩ := announces.traced
    have before : Store.cellAt { s with trace := trace } address = ⟨some f, none⟩ := waiting
    refine use_of_raised ?_ announces ?_
    · obtain ⟨_, mapping, name⟩ := p
      cases shape
      rfl
    · rw [process_of_lazy shape]
      exact Eval.bind_of_eq_error (resolve_of_raised before raised) _

namespace Store

/-- After a call of a factory that has raised, the cell is as it was. -/
theorem cellAt_of_raised {n address : Nat} {s u : Store} {f owner : Value} {stop : Stop}
    (sound : s.Sound .any) (lively : s.Lively) (waiting : s.cellAt address = ⟨some f, none⟩)
    (within : owner.Within (Names.any.below s.results.size))
    (raised : (evaluator n).call f ([owner].take (f.arity 1)) (s.note address .called) =
      .error stop u) (orderly : u.Orderly) : u.cellAt address = ⟨some f, none⟩ := by
  have function : f.Within (Names.any.below s.results.size) := by
    have factory := sound.factory address
    rw [waiting] at factory
    exact factory
  have given : ∀ v ∈ [owner].take (f.arity 1), v.Within (Names.any.below s.results.size) :=
    fun v member => List.mem_singleton.mp (List.mem_of_mem_take member) ▸ within
  have ends := ((Pairing.cells_tracks n).call s.results.size f _ function given).2
    (s.note address .called) (s.note address .called) rfl (sound.congr rfl rfl rfl) rfl trivial
  have tends : Tends True (s.note address .called) u := by
    rw [raised] at ends
    cases ends with
    | error failed _ => exact failed.mono fun _ _ => trivial
    | exhausted after => exact after
  exact (tends.supplied waiting orderly lively).2.2.2.1

/-- A run that begins when nothing is running leaves nothing running. -/
theorem Kept.disciplined {s t : Store} {excused : Prop} (kept : Kept excused s t)
    (idle : ∀ address, ¬s.Running address) :
    s.Disciplined t ∧ ∀ address, ¬t.Running address := by
  have stopped (address : Nat) : ¬t.Running address := fun running =>
    idle address (kept.idle address running)
  have life (address : Nat) (inside : address < t.cells.size) :=
    (kept.lively.life address inside).resolve_right (stopped address)
  refine ⟨⟨life, fun address => ?_, kept.definition⟩, stopped⟩
  by_cases inside : address < t.cells.size
  · rw [(life address inside).countP_returned]
    split <;> omega
  · rw [kept.lively.nothing address (Nat.le_of_not_lt inside)]
    exact Nat.zero_le _

theorem eventsOf_initial (runtime : Runtime) (address : Nat) :
    (initial.under runtime).eventsOf address =
      if address = Parser.expressionCell then [.made (some Parser.arithmeticFactory)] else [] := by
  cases address <;> rfl

theorem not_running_initial (runtime : Runtime) (address : Nat) :
    ¬(initial.under runtime).Running address := by
  rintro ⟨before, f, events, -, -⟩
  rw [eventsOf_initial] at events
  split at events
  · have last := congrArg List.getLast? events
    simp at last
  · simp at events

theorem not_untold_initial (runtime : Runtime) (address : Nat) :
    ¬CellEvent.Untold ((initial.under runtime).eventsOf address) := by
  rintro ⟨before, p, events⟩
  rw [eventsOf_initial] at events
  split at events
  · have second := congrArg (fun events => events.reverse[0]?) events
    simp at second
  · simp at events

end Store

/-- Whatever is done with lazy parsers in a session, in whatever order and from inside whatever
callback, as long as no factory uses its own cell while it is running: every cell lives its life, a
definition never changes and no factory returns twice. While debug messages are recorded and all
names are texts, each return is told of in the steps in which it takes place, unless the depth for
one of these is used up. The operations on a cell do what they should in every store, and a cell
whose factory has raised is left as it was. -/
theorem cells_keep_to_their_lives (n : Nat) (runtime : Runtime) (loud : Bool)
    (steps more : List Step)
    (orderly : (Session.runSteps (evaluator n) more (Session.runSteps (evaluator n) steps
      { Store.initial.under runtime with debug := loud }).2).2.Orderly) :
    let start : Store := { Store.initial.under runtime with debug := loud }
    let first := Session.runSteps (evaluator n) steps start
    let second := Session.runSteps (evaluator n) more first.2
    first.2.Disciplined second.2 ∧
      (∀ address, ¬CellEvent.Untold (start.eventsOf address)) ∧
      (loud = true → Session.NamesTexts n steps start → Session.NamesTexts n more first.2 →
        (∀ outcome ∈ second.1, outcome.answer ≠ .error .outOfFuel) →
          ∀ address, CellEvent.Untold (second.2.eventsOf address) →
            CellEvent.Untold (first.2.eventsOf address)) ∧
      second.2.Sound .any ∧ second.2.Lively ∧ (evaluator n).MindsCells ∧
      ∀ (s u : Store) (address : Nat) (f owner : Value) (stop : Stop), s.Sound .any → s.Lively →
        s.cellAt address = ⟨some f, none⟩ → owner.Within (Names.any.below s.results.size) →
        (evaluator n).call f ([owner].take (f.arity 1)) (s.note address .called) =
          .error stop u → u.Orderly → u.cellAt address = ⟨some f, none⟩ := by
  intro start first second
  have sound (names : Names) : start.Sound names :=
    (Store.sound_initial names runtime).congr rfl rfl rfl
  have lively : start.Lively :=
    ⟨(Store.lively_initial runtime).life, (Store.lively_initial runtime).nothing⟩
  obtain ⟨tends, sound₁⟩ := Session.tends_runSteps (Pairing.cells_tracks n) steps (sound .any)
  obtain ⟨tends', sound₂⟩ := Session.tends_runSteps (Pairing.cells_tracks n) more sound₁
  have kept := tends.kept (orderly.of_later tends'.history) lively
  have kept' := tends'.kept orderly kept.lively
  obtain ⟨-, idle⟩ := kept.disciplined (Store.not_running_initial runtime)
  refine ⟨(kept'.disciplined idle).1, Store.not_untold_initial runtime,
    fun debug named named' finished address => ?_, sound₂, kept'.lively,
    (evaluator n).mindsCells, fun s u address f owner stop sound lively waiting within raised
      orderly => Store.cellAt_of_raised sound lively waiting within raised orderly⟩
  have texts := Session.tends_runSteps (Pairing.cells_tracks_texts n) steps (sound .texts)
  rw [named] at texts
  have texts' := Session.tends_runSteps (Pairing.cells_tracks_texts n) more texts.2
  rw [named'] at texts'
  refine (texts'.1.kept orderly kept.lively).told (tends.debug.trans debug) ?_ address
  rintro (excuse | ⟨outcome, member, exhausted⟩)
  · cases excuse
  · exact finished outcome member exhausted

/-- A lazy parser whose factory makes a parser for one item. -/
def lazyItem : Step :=
  ⟨.apply (.make .lazy) [.function [] (.apply (.make .item) [])], some "p"⟩

/-- A use of a copy of it. -/
def copyOfLazyItem : Step :=
  ⟨.apply (.method .parse) [.apply (.method .copy) [.variable "p"], .literal (.text ['a'])], none⟩

/-- The copy is used while debug messages are recorded. -/
theorem lazyItem_keeps_to_its_life :
    let start : Store := { Store.initial.under .standard with debug := true }
    let first := Session.runSteps (evaluator 6) [lazyItem] start
    let second := Session.runSteps (evaluator 6) [copyOfLazyItem] first.2
    second.2.Orderly ∧ (second.2.cellAt 1).definition = some .item ∧
      first.2.Disciplined second.2 ∧
      (CellEvent.Untold (second.2.eventsOf 1) → CellEvent.Untold (first.2.eventsOf 1)) := by
  intro start first second
  have orderly : second.2.Orderly := .of_countP (by decide)
  obtain ⟨disciplined, -, told, -⟩ :=
    cells_keep_to_their_lives 6 .standard true [lazyItem] [copyOfLazyItem] orderly
  -- What both runs come to is written out, as one is not seen to be the other.
  have named : Session.NamesTexts 6 [lazyItem] start :=
    (rfl : _ = ([(⟨.ok (.parser "lazy(...)".toList), #[]⟩ : Outcome)], first.2))
  have named' : Session.NamesTexts 6 [copyOfLazyItem] first.2 :=
    (rfl : _ = ([(⟨.ok (.result [(.text ['a'], .text [])]), second.2.trace⟩ : Outcome)], second.2))
  have finished : second.1.all (fun outcome => outcome.answer.toBool) = true := rfl
  refine ⟨orderly, rfl, disciplined, told rfl named named' (fun outcome member exhausted => ?_) 1⟩
  have value := List.all_eq_true.mp finished outcome member
  simp [exhausted, Except.toBool] at value

/-- A lazy parser that is named by a number, and so cannot be shown, is asked for its definition. -/
def misnamedLazyItem : Step :=
  ⟨.apply (.method .resolve) [.apply (.method .named)
    [.apply (.make .lazy) [.function [] (.apply (.make .item) [])], .literal (.int 5)]], none⟩

/-- Its factory returns and makes the definition, but the message about that is not recorded: to
show the parser is an error. -/
theorem misnamedLazyItem_is_untold :
    let start : Store := { Store.initial with debug := true }
    let run := Session.runSteps (evaluator 6) [misnamedLazyItem] start
    run.2.Orderly ∧ (run.2.cellAt 1).definition = some .item ∧
      CellEvent.Untold (run.2.eventsOf 1) ∧ run.1.map (·.trace) = [#[]] ∧
      run.1.map (·.answer) = [.error (.error .wrongKind)] := by
  intro start run
  have orderly : run.2.Orderly := .of_countP (by decide)
  exact ⟨orderly, rfl, ⟨[.made _, .called], .item, rfl⟩, rfl, rfl⟩

end GrammarKit
