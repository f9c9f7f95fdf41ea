import GrammarKit.Proofs.Agreement
import GrammarKit.Proofs.Store
import GrammarKit.Proofs.Within.Combinators

/-! # Sound stores

Result lists are handed out and appended to, but never taken back. So what refers to a result list
that exists does so later on. A store is sound if everything in it refers to result lists that
exist, and if the parsers in it are named as they should be.
-/

namespace GrammarKit

/-- Whether nothing of any result list is lost. -/
structure Results.Le (results later : Results) : Prop where
  size : results.size ≤ later.size
  read : ∀ address, results.read address <+: later.read address

namespace Results.Le

variable {results later last : Results}

theorem refl (results : Results) : results.Le results :=
  ⟨Nat.le_refl _, fun _ => List.prefix_rfl⟩

theorem trans (first : results.Le later) (second : later.Le last) : results.Le last :=
  ⟨Nat.le_trans first.size second.size,
    fun address => (first.read address).trans (second.read address)⟩

theorem push (results : Results) (ds : List Derivation) : results.Le (results.push ds) := by
  refine ⟨by simp, fun address => ?_⟩
  rw [Results.read_push]
  split
  · next same => simp [Results.read_eq_nil (Nat.le_of_eq same.symm)]
  · exact List.prefix_rfl

theorem append (results : Results) (address : Nat) (ds : List Derivation) :
    results.Le (results.write address (results.read address ++ ds)) := by
  refine ⟨by simp, fun other => ?_⟩
  rw [Results.read_write]
  split
  · next same => exact same.1 ▸ List.prefix_append _ _
  · exact List.prefix_rfl

end Results.Le

/-- Which names parsers may have; all texts are among them. -/
structure Names where
  may : Value → Prop
  text : ∀ cs, may (.text cs)

namespace Names

/-- Any names. -/
def any : Names := ⟨fun _ => True, fun _ => trivial⟩

/-- Texts as names. -/
def texts : Names := ⟨fun v => ∃ cs, v = .text cs, fun cs => ⟨cs, rfl⟩⟩

variable (names : Names)

/-- Values that refer to the first `count` result lists. -/
def below (count : Nat) : Bounds := ⟨fun address => address < count, names.may, names.text⟩

theorem below_le {n m : Nat} (le : n ≤ m) : (names.below n).Le (names.below m) :=
  ⟨fun _ less => Nat.lt_of_lt_of_le less le, fun _ may => may⟩

end Names

/-- Whether everything in a store is within bounds. -/
structure Store.Within (b : Bounds) (s : Store) : Prop where
  results : s.results.All (Value.Within b)
  factory : ∀ address, Value.OptionWithin b (s.cellAt address).factory
  definition : ∀ address p, (s.cellAt address).definition = some p → p.Within b
  globals : Value.ScopeWithin b s.globals

namespace Store.Within

variable {b : Bounds} {s t : Store}

/-- Only result lists, cells and variables matter. -/
theorem congr (within : s.Within b) (results : t.results = s.results) (cells : t.cells = s.cells)
    (globals : t.globals = s.globals) : t.Within b := by
  have here (address : Nat) : t.cellAt address = s.cellAt address := by
    rw [cellAt, cells]
    rfl
  refine ⟨?_, fun address => ?_, fun address p defined => ?_, ?_⟩
  · rw [results]
    exact within.results
  · rw [here]
    exact within.factory address
  · rw [here] at defined
    exact within.definition address p defined
  · rw [globals]
    exact within.globals

theorem newResult (within : s.Within b) {ds : List Derivation} (all : ∀ d ∈ ds, d.Within b) :
    Within b { s with results := s.results.push ds } := by
  refine ⟨fun address known d member => ?_, within.factory, within.definition, within.globals⟩
  rw [Results.read_push] at member
  split at member
  · exact all d member
  · exact within.results address known d member

theorem append (within : s.Within b) {address : Nat} {ds : List Derivation}
    (known : b.result address) (all : ∀ d ∈ ds, d.Within b) :
    Within b
      { s with results := s.results.write address (s.results.read address ++ ds) } := by
  refine ⟨fun other known' d member => ?_, within.factory, within.definition, within.globals⟩
  rw [Results.read_write] at member
  split at member
  · rcases List.mem_append.mp member with old | new
    · exact within.results address known d old
    · exact all d new
  · exact within.results other known' d member

theorem addCell (within : s.Within b) {factory : Option Value}
    (made : Value.OptionWithin b factory) : (s.addCell factory).Within b := by
  refine ⟨within.results, fun address => ?_, fun address p defined => ?_, within.globals⟩
  · rw [cellAt_addCell]
    split
    · exact made
    · exact within.factory address
  · rw [cellAt_addCell] at defined
    split at defined
    · cases defined
    · exact within.definition address p defined

theorem settle (within : s.Within b) {address : Nat} {p : Parser} (parser : p.Within b) :
    (s.settle address p).Within b := by
  refine ⟨?_, fun other => ?_, fun other q defined => ?_, ?_⟩
  · rw [results_settle]
    exact within.results
  · rw [cellAt_settle]
    split
    · exact within.factory other
    · exact within.factory other
  · rw [cellAt_settle] at defined
    split at defined
    · cases defined
      exact parser
    · exact within.definition other q defined
  · rw [globals_settle]
    exact within.globals

end Store.Within

/-- Whether everything in a store refers to result lists that exist, and parsers are named as they
may be. -/
def Store.Sound (names : Names) (s : Store) : Prop := s.Within (names.below s.results.size)

/-- Whether result lists only grow from one store to another one, and debug messages are recorded
as before. -/
structure Store.Keeps (s t : Store) : Prop where
  results : s.results.Le t.results
  debug : t.debug = s.debug

namespace Store.Keeps

variable {s t u : Store}

theorem refl (s : Store) : s.Keeps s := ⟨.refl _, rfl⟩

theorem trans (first : s.Keeps t) (second : t.Keeps u) : s.Keeps u :=
  ⟨first.results.trans second.results, second.debug.trans first.debug⟩

end Store.Keeps

namespace Store.Sound

variable {names : Names} {s t : Store}

/-- Only result lists, cells and variables matter. -/
theorem congr (sound : s.Sound names) (results : t.results = s.results)
    (cells : t.cells = s.cells) (globals : t.globals = s.globals) : t.Sound names := by
  unfold Sound
  rw [results]
  exact Within.congr sound results cells globals

theorem newResult (sound : s.Sound names) {ds : List Derivation}
    (all : ∀ d ∈ ds, d.Within (names.below s.results.size)) :
    Sound names { s with results := s.results.push ds } := by
  have le : (names.below s.results.size).Le (names.below (s.results.push ds).size) :=
    names.below_le (by simp)
  refine ⟨fun address inside d member => ?_, fun address => ?_, fun address p defined => ?_, ?_⟩
  · rw [Results.read_push] at member
    split at member
    · exact (all d member).mono le
    · next other =>
      have before : address < s.results.size := by
        have within : address < (s.results.push ds).size := inside
        rw [Results.size_push] at within
        omega
      exact (sound.results address before d member).mono le
  · exact (sound.factory address).mono le
  · exact (sound.definition address p defined).mono le
  · exact sound.globals.mono le

theorem append (sound : s.Sound names) {address : Nat} {ds : List Derivation}
    (all : ∀ d ∈ ds, d.Within (names.below s.results.size)) :
    Sound names
      { s with results := s.results.write address (s.results.read address ++ ds) } := by
  unfold Sound
  rw [Results.size_write]
  by_cases inside : address < s.results.size
  · exact Within.append sound inside all
  · refine Within.congr sound ?_ rfl rfl
    exact Results.write_of_size_le _ (Nat.le_of_not_lt inside)

theorem addCell (sound : s.Sound names) {factory : Option Value}
    (within : Value.OptionWithin (names.below s.results.size) factory) :
    (s.addCell factory).Sound names :=
  Within.addCell sound within

theorem settle (sound : s.Sound names) {address : Nat} {p : Parser}
    (within : p.Within (names.below s.results.size)) : (s.settle address p).Sound names := by
  unfold Sound
  rw [results_settle]
  exact Within.settle sound within

end Store.Sound

/-- The store in which everything begins is sound, whatever the runtime decides. -/
theorem Store.sound_initial (names : Names) (runtime : Runtime) :
    (Store.initial.under runtime).Sound names := by
  have cell (address : Nat) : (Store.initial.under runtime).cellAt address =
      if address = Parser.expressionCell then ⟨some Parser.arithmeticFactory, none⟩
      else ⟨none, none⟩ := by
    cases address <;> rfl
  refine ⟨fun address _ d member => ?_, fun address => ?_, fun address p defined => ?_, trivial⟩
  · cases member
  · rw [cell]
    split <;> trivial
  · rw [cell] at defined
    split at defined <;> cases defined

namespace Eval

/-- Which way an evaluation goes that depends on whether debug messages are recorded. -/
theorem branch_apply {α : Type} (x y : Eval α) (s : Store) :
    (do if (← get).debug then x else y : Eval α) s = if s.debug then x s else y s := by
  change (if s.debug = true then x else y) s = _
  split <;> rfl

variable {α β : Type} {names : Names} {w : Nat}

/-- Whether an evaluation leads from sound stores with `w` result lists to sound stores, however it
ends; `Q` says what value it gives, in terms of how many result lists there are then. -/
def Sound (names : Names) (w : Nat) (x : Eval α) (Q : Nat → α → Prop) : Prop :=
  ∀ s, s.results.size = w → s.Sound names →
    s.Keeps (afterwards (x s)) ∧ (afterwards (x s)).Sound names ∧
      ∀ a t, x s = .ok a t → Q t.results.size a

namespace Sound

variable {P Q : Nat → α → Prop} {R : Nat → β → Prop}

theorem bind {x : Eval α} {f : α → Eval β} (first : Sound names w x P)
    (second : ∀ w' a, w ≤ w' → P w' a → Sound names w' (f a) R) : Sound names w (x >>= f) R := by
  intro s size sound
  obtain ⟨keeps, after, value⟩ := first s size sound
  cases found : x s with
  | ok a t =>
    rw [found] at keeps after
    have le : w ≤ t.results.size := size ▸ keeps.results.size
    obtain ⟨keeps', after', value'⟩ := second _ a le (value a t found) t rfl after
    rw [bind_of_eq_ok found]
    exact ⟨keeps.trans keeps', after', value'⟩
  | error stop t =>
    rw [found] at keeps after
    rw [bind_of_eq_error found]
    exact ⟨keeps, after, nofun⟩

theorem pure {a : α} (holds : Q w a) : Sound names w (Pure.pure a) Q := by
  intro s size sound
  refine ⟨.refl s, sound, ?_⟩
  intro b t value
  obtain ⟨rfl, rfl⟩ := pure_eq_ok_iff.mp value
  exact size ▸ holds

theorem throw (stop : Stop) : Sound names w (MonadExcept.throw stop : Eval α) Q :=
  fun s _ sound => ⟨.refl s, sound, nofun⟩

theorem raise (e : Error) : Sound names w (GrammarKit.raise e : Eval α) Q := throw (.error e)

theorem mono {x : Eval α} (first : Sound names w x P)
    (weaker : ∀ w' a, w ≤ w' → P w' a → Q w' a) : Sound names w x Q := by
  intro s size sound
  obtain ⟨keeps, after, value⟩ := first s size sound
  refine ⟨keeps, after, fun a t found => ?_⟩
  rw [found] at keeps
  exact weaker _ a (size ▸ keeps.results.size) (value a t found)

/-- What leaves a store in which the same is in result lists, cells and variables. -/
theorem update {f : Store → Store} {Q : Nat → Unit → Prop}
    (same : ∀ s, (f s).results = s.results ∧ (f s).cells = s.cells ∧
      (f s).globals = s.globals ∧ (f s).debug = s.debug) (holds : Q w ()) :
    Sound names w (modify f) Q := by
  intro s size sound
  obtain ⟨results, cells, globals, debug⟩ := same s
  have sound' := sound.congr results cells globals
  refine ⟨⟨?_, debug⟩, sound', ?_⟩
  · change s.results.Le (f s).results
    rw [results]
    exact .refl _
  · rintro _ t ⟨⟩
    rw [results, size]
    exact holds

theorem readCell {address : Nat} : Sound names w (Store.readCell address) fun w' cell =>
    w' = w ∧ Value.OptionWithin (names.below w) cell.factory ∧
      ∀ p, cell.definition = some p → p.Within (names.below w) := by
  intro s size sound
  refine ⟨.refl s, sound, ?_⟩
  rintro _ t ⟨⟩
  subst size
  exact ⟨rfl, sound.factory address, sound.definition address⟩

theorem defineCell {address : Nat} {p : Parser} (within : p.Within (names.below w)) :
    Sound names w (Store.defineCell address p) fun w' _ => w' = w := by
  intro s size sound
  subst size
  refine ⟨⟨?_, s.debug_settle address p⟩, sound.settle within, ?_⟩
  · change s.results.Le (s.settle address p).results
    rw [Store.results_settle]
    exact .refl _
  · rintro _ t ⟨⟩
    rw [Store.results_settle]

theorem supply {address : Nat} {call : Eval α} (sound : Sound names w call Q) :
    Sound names w (Store.supply address call) Q := by
  intro s size start
  obtain ⟨keeps, after, value⟩ := sound (s.note address .called) size (start.congr rfl rfl rfl)
  unfold Store.supply
  cases found : call (s.note address .called) with
  | ok a t =>
    rw [found] at keeps after
    refine ⟨⟨keeps.results, keeps.debug⟩, after.congr rfl rfl rfl, ?_⟩
    rintro _ _ ⟨⟩
    exact value a t found
  | error stop t =>
    rw [found] at keeps after
    exact ⟨⟨keeps.results, keeps.debug⟩, after.congr rfl rfl rfl, nofun⟩

theorem withDebug {x : Eval α} (sound : Sound names w x Q) :
    Sound names w (Store.withDebug x) Q := by
  intro s size start
  obtain ⟨keeps, after, value⟩ := sound { s with debug := true } size (start.congr rfl rfl rfl)
  unfold Store.withDebug
  dsimp only
  cases found : x { s with debug := true } with
  | ok a t =>
    rw [found] at keeps after
    refine ⟨⟨keeps.results, rfl⟩, after.congr rfl rfl rfl, ?_⟩
    rintro _ _ ⟨⟩
    exact value a t found
  | error stop t =>
    rw [found] at keeps after
    exact ⟨⟨keeps.results, rfl⟩, after.congr rfl rfl rfl, nofun⟩

/-- A computation without effects. -/
theorem liftStop {x : Except Stop α} (holds : ∀ a, x = .ok a → Q w a) :
    Sound names w (liftM x) Q := by
  cases x with
  | ok a => exact pure (holds a rfl)
  | error stop => exact throw stop

theorem readResults : Sound names w Store.readResults fun w' results =>
    w' = w ∧ results.All (Value.Within (names.below w)) := by
  intro s size sound
  refine ⟨.refl s, sound, ?_⟩
  rintro _ t ⟨⟩
  subst size
  exact ⟨rfl, sound.results⟩

theorem ite {p : Prop} [Decidable p] {x y : Eval α} (yes : p → Sound names w x Q)
    (no : ¬p → Sound names w y Q) : Sound names w (if p then x else y) Q := by
  split
  · exact yes ‹p›
  · exact no ‹¬p›

/-! ## Messages -/

theorem display (ev : Evaluator) (v : Value) : Sound names w (ev.display v) fun w' _ => w' = w :=
  readResults.bind fun _ _ _ read => liftStop fun _ _ => read.1

theorem describe (ev : Evaluator) (v : Value) : Sound names w (ev.describe v) fun w' _ => w' = w :=
  readResults.bind fun _ _ _ read => liftStop fun _ _ => read.1

theorem log (message : List Char) : Sound names w (Evaluator.log message) fun w' _ => w' = w :=
  update (fun _ => ⟨rfl, rfl, rfl, rfl⟩) rfl

theorem logTrying (ev : Evaluator) (p : Parser) (input : Value) :
    Sound names w (ev.logTrying p input) fun w' _ => w' = w := by
  refine (describe ev _).bind fun w' shown _ same => ?_
  refine (describe ev _).bind fun w'' read _ same' => ?_
  exact (log _).mono fun _ _ _ same'' => same''.trans (same'.trans same)

theorem logProduced (ev : Evaluator) (p : Parser) (count : Nat) :
    Sound names w (ev.logProduced p count) fun w' _ => w' = w := by
  refine (describe ev _).bind fun w' shown _ same => ?_
  exact (log _).mono fun _ _ _ same' => same'.trans same

theorem logResolved (ev : Evaluator) (address : Nat) (owner : Value) :
    Sound names w (ev.logResolved address owner) fun w' _ => w' = w := by
  refine (describe ev _).bind fun w' shown _ same => ?_
  refine (log _).bind fun w'' _ _ same' => ?_
  exact update (fun _ => ⟨rfl, rfl, rfl, rfl⟩) (same'.trans same)

theorem branch {x y : Eval α} (yes : Sound names w x Q) (no : Sound names w y Q) :
    Sound names w (do if (← get).debug then x else y) Q := by
  intro s size sound
  rw [branch_apply]
  split
  · exact yes s size sound
  · exact no s size sound

/-! ## Uses of parsers -/

/-- Definitions are made by calls of factories. -/
theorem resolve {ev : Evaluator} {address : Nat} {owner : Value}
    (calls : ∀ f (arguments : List Value), f.Within (names.below w) →
      (∀ v ∈ arguments, v.Within (names.below w)) →
        Sound names w (ev.call f arguments) fun w' v => v.Within (names.below w'))
    (within : owner.Within (names.below w)) :
    Sound names w (ev.resolve address owner) fun w' p => p.Within (names.below w') := by
  refine readCell.bind fun w' cell le read => ?_
  obtain ⟨rfl, made, defined⟩ := read
  cases found : cell.definition with
  | some p => exact pure (defined p found)
  | none =>
    cases factory : cell.factory with
    | none => exact raise _
    | some f =>
      rw [factory] at made
      have given : ∀ v ∈ [owner].take (f.arity 1), v.Within (names.below w') := fun v member =>
        List.mem_singleton.mp (List.mem_of_mem_take member) ▸ within
      refine (supply (calls f _ made given)).bind fun w'' v _ result => ?_
      have parser := Parser.within_asParser.mpr result
      refine (defineCell parser).bind fun w₃ _ _ same => ?_
      subst same
      refine branch ?_ (pure parser)
      exact (logResolved ev address owner).bind fun w₄ _ _ same => pure (same ▸ parser)

theorem use {ev : Evaluator} {p : Parser} {input : Value} {Q : Nat → List Derivation → Prop}
    (produced : Sound names w (ev.produce p input) Q) : Sound names w (ev.use p input) Q := by
  refine ite (fun _ => raise _) fun _ => branch ?_ produced
  refine (logTrying ev p input).bind fun w' _ _ same => ?_
  subst same
  refine produced.bind fun w'' found _ value => ?_
  exact (logProduced ev p _).bind fun w₃ _ _ same => pure (same ▸ value)

end Sound

end Eval

end GrammarKit
