import GrammarKit.Evaluation.Interpreter
import GrammarKit.Proofs.Standard.Call

/-! # Uses of standard parsers agree

A standard parser comes to the same derivations from coupled stores, and with more depth, if the
calls of the written functions do and the definitions of the lazy parsers. What is left open here
is how coupled stores may differ: in what has been traced, or in which lazy parsers have got their
definition.
-/

namespace GrammarKit

open Eval

variable {r : Reach} {b : Coupling} {debug : Bool}

/-- Whether debug messages are recorded from all coupled stores or from none, which remain coupled
when one is recorded. -/
structure Coupling.Records (b : Coupling) (debug : Bool) : Prop where
  left : ∀ s t, b.related s t → s.debug = debug
  right : ∀ s t, b.related s t → t.debug = debug
  record : ∀ entry, Agrees b (Store.record entry) (Store.record entry) fun _ => True

/-- What depends on whether messages are recorded. -/
theorem Coupling.Records.agrees_ite {α : Type} {Q : α → Prop} (records : b.Records debug)
    {x x' y y' : Eval α} (yes : debug = true → Agrees b x x' Q)
    (no : debug = false → Agrees b y y' Q) :
    Agrees b (do if (← get).debug then x else y) (do if (← get).debug then x' else y') Q := by
  intro s t related
  change Agree b Q ((if s.debug then x else y) s) ((if t.debug then x' else y') t)
  rw [records.left s t related, records.right s t related]
  cases debug with
  | true => exact yes rfl s t related
  | false => exact no rfl s t related

/-- Whether all of several derivations are standard. -/
def Derivation.AllStandard (r : Reach) (ds : List Derivation) : Prop := ∀ d ∈ ds, d.Standard r

/-- Whether the name of a parser, if there is one, is a text. -/
def Parser.IsTitled (p : Parser) : Prop := ∀ v, p.name = some v → ∃ cs, v = .text cs

/-- What can be shown is titled. -/
theorem Parser.isTitled_of_display {results : Results} {n : Nat} {p : Parser} {text : List Char}
    (shown : (Value.parser p).display results n = .ok text) : p.IsTitled := by
  obtain ⟨shape, mapping, name⟩ := p
  rintro v rfl
  cases v with
  | text cs => exact ⟨cs, rfl⟩
  | _ => cases n <;> cases shown

namespace Evaluator

variable {ev ev' : Evaluator}

/-- Whether calls and uses agree on what is standard. -/
structure ParsesAgree (r : Reach) (b : Coupling) (ev ev' : Evaluator) : Prop where
  calls : CallsAgree r b ev ev'
  parses : ∀ (p : Parser) (input : Value), p.Standard r → input.Standard r →
    Agrees b (ev.parse p input) (ev'.parse p input) (Derivation.AllStandard r)

/-- Whether the definitions of lazy parsers agree, where their users can be shown if need be. -/
def ResolvesAgree (r : Reach) (b : Coupling) (debug : Bool) (ev ev' : Evaluator) : Prop :=
  ∀ address mapping name, r.cell address →
    (Value.parser (.node (.lazy address) mapping name)).Standard r →
    (debug = true → (Parser.node (.lazy address) mapping name).IsTitled) →
      Agrees b (ev.resolve address (.parser (.node (.lazy address) mapping name)))
        (ev'.resolve address (.parser (.node (.lazy address) mapping name))) (Parser.Standard r)

/-! ## Sequencing, choice and repetition -/

theorem agrees_continuation (agree : CallsAgree r b ev ev') {next value remainder : Value}
    (continues : next.Standard r) (standard : value.Standard r) (rest : remainder.Standard r) :
    Agrees b (ev.continuation next value remainder) (ev'.continuation next value remainder)
      (Parser.Standard r) := by
  unfold continuation
  refine Agrees.ite (fun _ => ?_) fun _ => Agrees.pure (Parser.standard_asParser.mpr continues)
  have given : ∀ v ∈ [value, remainder].take (next.arity 2), v.Standard r := by
    intro v member
    have inside := List.mem_of_mem_take member
    simp only [List.mem_cons, List.not_mem_nil, or_false] at inside
    rcases inside with rfl | rfl
    · exact standard
    · exact rest
  refine (agree.calls next _ continues given).bind fun w result => Agrees.pure ?_
  exact Parser.standard_asParser.mpr result

theorem agrees_continueAll (agree : ParsesAgree r b ev ev') {next : Value}
    (continues : next.Standard r) (found : List Derivation) (all : Derivation.AllStandard r found) :
    Agrees b (ev.continueAll next found) (ev'.continueAll next found)
      (Derivation.AllStandard r) := by
  induction found with
  | nil => exact Agrees.pure (List.forall_mem_nil _)
  | cons d found ih =>
    have here := all d List.mem_cons_self
    refine (agrees_continuation agree.calls continues here.1 here.2).bind fun p parser => ?_
    refine (agree.parses p d.remainder parser here.2).bind fun ds after => ?_
    refine (ih fun other member => all other (List.mem_cons_of_mem _ member)).bind ?_
    exact fun others rest => Agrees.pure (List.forall_mem_append.mpr ⟨after, rest⟩)

theorem agrees_firstOf (agree : ParsesAgree r b ev ev') {input : Value}
    (standard : input.Standard r) (ps : List Parser) (all : ∀ p ∈ ps, p.Standard r) :
    Agrees b (ev.firstOf input ps) (ev'.firstOf input ps) (Derivation.AllStandard r) := by
  induction ps with
  | nil => exact Agrees.pure (List.forall_mem_nil _)
  | cons p ps ih =>
    refine (agree.parses p input (all p List.mem_cons_self) standard).bind fun found here => ?_
    refine Agrees.ite (fun _ => ?_) fun _ => Agrees.pure here
    exact ih fun q member => all q (List.mem_cons_of_mem _ member)

end Evaluator

/-- Whether a path leads through standard values. -/
structure Path.Standard (r : Reach) (path : Path) : Prop where
  values : ∀ v ∈ path.values, v.Standard r
  remainder : path.remainder.Standard r

namespace Evaluator

variable {ev ev' : Evaluator}

theorem agrees_gathered {path : Path} (standard : path.Standard r) (accumulate : Value) :
    Agrees b (liftM (accumulateValues accumulate path.values.reverse))
      (liftM (accumulateValues accumulate path.values.reverse)) (Value.Standard r) :=
  Agrees.lift fun _ gathered => Value.hereditary_standard.accumulateValues
    (fun v member => standard.values v (List.mem_reverse.mp member)) gathered

/-- Repetitions of a step agree if the step does, whatever is on the agenda. -/
theorem agrees_explore (fits : b.Fits r) {step step' : Value → Eval (List Derivation)}
    {accumulate : Value} (steps : ∀ v : Value, v.Standard r →
      Agrees b (step v) (step' v) (Derivation.AllStandard r))
    (budget : Nat) (agenda : List Path) (out : List Derivation) (budget' : Nat)
    (deeper : budget ≤ budget') (open_ : ∀ p ∈ agenda, p.Standard r)
    (ended : Derivation.AllStandard r out) :
    Agrees b (explore step (accumulateValues accumulate) budget agenda out)
      (explore step' (accumulateValues accumulate) budget' agenda out)
      (Derivation.AllStandard r) := by
  induction budget, agenda, out using explore.induct generalizing budget' with
  | case1 budget out =>
    rw [explore, explore]
    exact Agrees.pure fun d member => ended d (List.mem_reverse.mp member)
  | case2 budget out path rest zero ih =>
    have here := open_ path List.mem_cons_self
    have others := fun p member => open_ p (List.mem_cons_of_mem _ member)
    rw [explore, explore, if_pos zero, if_pos zero]
    refine (agrees_gathered here accumulate).bind fun value standard => ?_
    exact ih value budget' deeper others
      (List.forall_mem_cons.mpr ⟨⟨standard, here.remainder⟩, ended⟩)
  | case3 budget out path rest zero ih1 ih2 ih3 ih4 =>
    have here := open_ path List.mem_cons_self
    have others := fun p member => open_ p (List.mem_cons_of_mem _ member)
    rw [explore, explore, if_neg zero, if_neg zero]
    refine (steps path.remainder here.remainder).bind fun found all => ?_
    refine Agrees.ite (fun _ => Agrees.ite (fun _ => ?_) fun _ => ?_) fun _ => ?_
    · exact ih1 budget' deeper others ended
    · refine (agrees_gathered here accumulate).bind fun value standard => ?_
      exact ih2 value budget' deeper others
        (List.forall_mem_cons.mpr ⟨⟨standard, here.remainder⟩, ended⟩)
    · refine fits.look (fun bounded => Path.local_extendAll (here.remainder.within bounded)
          fun d member => (all d member).toValue.within bounded)
        (fun _ _ _ extended => Path.exists_of_mem_extendAll _ extended) ?_
      rintro opened ⟨_, each⟩
      have good : ∀ p ∈ opened ++ rest, p.Standard r := by
        refine List.forall_mem_append.mpr ⟨fun p member => ?_, others⟩
        obtain ⟨d, inside, values, remainder⟩ := each p member
        have standard := all d inside
        refine ⟨?_, remainder ▸ standard.2⟩
        rw [values]
        exact List.forall_mem_cons.mpr ⟨standard.1, here.values⟩
      split
      · next low => exact ih3 opened low budget' deeper good ended
      · cases budget with
        | zero => exact Agrees.outOfFuel
        | succ budget =>
          obtain ⟨budget', rfl⟩ : ∃ k, budget' = k + 1 := ⟨budget' - 1, by omega⟩
          exact ih4 opened budget' (Nat.le_of_succ_le_succ deeper) good ended

/-! ## Uses -/

/-- What each of the basic variants does with an input agrees if what its parts do does. -/
theorem agrees_process (fits : b.Fits r) (agree : ParsesAgree r b ev ev')
    (resolves : ResolvesAgree r b debug ev ev') {p : Parser} {input : Value}
    (parser : p.Standard r) (standard : input.Standard r) (titled : debug = true → p.IsTitled) :
    Agrees b (ev.process p input) (ev'.process p input) (Derivation.AllStandard r) := by
  obtain ⟨shape, mapping, name⟩ := p
  have basic : shape.Standard r := parser.1
  have stay {v : Value} (value : v.Standard r) : Derivation.AllStandard r [⟨v, input⟩] :=
    List.forall_mem_singleton.mpr ⟨value, standard⟩
  have nothing : Derivation.AllStandard r [] := List.forall_mem_nil _
  cases shape with
  | unit v =>
    cases v with
    | missing => exact Agrees.pure (stay standard)
    | _ => exact Agrees.pure (stay basic)
  | zero => exact Agrees.pure nothing
  | item =>
    refine fits.look (fun bounded => Value.local_uncons? (standard.within bounded))
      (P := fun parts => ∀ part ∈ parts, Derivation.Standard r ⟨part.1, part.2⟩)
      (fun _ store parts split part some_ => ?_) fun parts all => ?_
    · exact Value.hereditary_standard.uncons? store.all standard (split.trans (congrArg _ some_))
    · cases parts with
      | none => exact Agrees.pure nothing
      | some parts => exact Agrees.pure (List.forall_mem_singleton.mpr (all parts rfl))
  | negation q =>
    refine (agree.parses q input basic standard).bind fun found _ => ?_
    exact Agrees.ite (fun _ => Agrees.pure (stay standard)) fun _ => Agrees.pure nothing
  | bind q next always =>
    refine (agree.parses q input basic.1 standard).bind fun found all => ?_
    refine Agrees.ite (fun _ => ?_) fun _ => agrees_continueAll agree basic.2.1 found all
    refine (agrees_truth fits basic.2.2).bind fun anyway _ => ?_
    refine Agrees.ite (fun _ => ?_) fun _ => Agrees.pure nothing
    have empty : (Value.text []).Standard r := trivial
    refine (agrees_continuation agree.calls basic.2.1 empty standard).bind fun next parser => ?_
    exact agree.parses next input parser standard
  | choice ps => exact agrees_firstOf agree standard ps ((Parser.allStandard_iff ps).mp basic)
  | many q accumulate =>
    refine fits.reading (fun results _ => ?_) fun bounded =>
      (Path.local_start (standard.within bounded)).map fun path =>
        explore (ev'.parse q) (accumulateValues accumulate) ev'.fuel [path] []
    refine agrees_explore fits (fun v inside => agree.parses q v basic.1 inside) _ _ _ _
      agree.calls.shallower ?_ nothing
    exact List.forall_mem_singleton.mpr ⟨List.forall_mem_nil _, standard⟩
  | lazy address =>
    refine (resolves address mapping name basic parser titled).bind fun q defined => ?_
    exact agree.parses q input defined standard
  | lazyOver _ | foreign _ => exact Agrees.raise _
  | splits _ | emit _ => exact basic.elim

theorem agrees_mapValues (agree : CallsAgree r b ev ev') {mapping : Value}
    (function : mapping.Standard r) (ds : List Derivation) (all : Derivation.AllStandard r ds) :
    Agrees b (ev.mapValues mapping ds) (ev'.mapValues mapping ds) (Derivation.AllStandard r) := by
  induction ds with
  | nil => exact Agrees.pure (List.forall_mem_nil _)
  | cons d ds ih =>
    have here := all d List.mem_cons_self
    refine (agree.calls mapping [d.value] function (by simpa using here.1)).bind fun v value => ?_
    refine (ih fun other member => all other (List.mem_cons_of_mem _ member)).bind ?_
    exact fun others rest => Agrees.pure (List.forall_mem_cons.mpr ⟨⟨value, here.2⟩, rest⟩)

theorem agrees_produce (fits : b.Fits r) (agree : ParsesAgree r b ev ev')
    (resolves : ResolvesAgree r b debug ev ev') {p : Parser} {input : Value}
    (parser : p.Standard r) (standard : input.Standard r) (titled : debug = true → p.IsTitled) :
    Agrees b (ev.produce p input) (ev'.produce p input) (Derivation.AllStandard r) := by
  refine (agrees_process fits agree resolves parser standard titled).bind fun found all => ?_
  obtain ⟨shape, mapping, name⟩ := p
  cases mapping with
  | none => exact Agrees.pure all
  | some f => exact agrees_mapValues agree.calls parser.2.1 found all

theorem agrees_describe (fits : b.Fits r) (deeper : ev.fuel ≤ ev'.fuel) {v : Value}
    {Q : List Char → Prop} (standard : v.Standard r)
    (holds : ∀ results : Results, ∀ text, v.display results ev.fuel = .ok text → Q text) :
    Agrees b (ev.describe v) (ev'.describe v) Q :=
  fits.observeStop (fun bounded => Value.local_describe _ (standard.within bounded))
    (fun _ => Value.sooner_display deeper v) fun results _ => holds results.unlimited

theorem agrees_log (records : b.Records debug) (message : List Char) :
    Agrees b (log message) (log message) fun _ => True := records.record (.text message)

/-- The message before a use tells that the parser can be shown. -/
theorem agrees_logTrying (fits : b.Fits r) (records : b.Records debug)
    (deeper : ev.fuel ≤ ev'.fuel) {p : Parser} {input : Value} (parser : p.Standard r)
    (standard : input.Standard r) :
    Agrees b (ev.logTrying p input) (ev'.logTrying p input) fun _ => p.IsTitled := by
  have owner : (Value.parser p).Standard r := parser
  refine (agrees_describe fits deeper owner fun _ _ shown =>
    Parser.isTitled_of_display shown).bind fun shown titled => ?_
  refine (agrees_describe fits deeper standard fun _ _ _ => trivial).bind fun read (_ : True) => ?_
  exact (agrees_log records _).mono fun _ _ => titled

theorem agrees_logProduced (fits : b.Fits r) (records : b.Records debug)
    (deeper : ev.fuel ≤ ev'.fuel) {p : Parser} (parser : p.Standard r) (count : Nat) :
    Agrees b (ev.logProduced p count) (ev'.logProduced p count) fun _ => True := by
  have owner : (Value.parser p).Standard r := parser
  exact (agrees_describe fits deeper owner fun _ _ _ => trivial).bind fun _ (_ : True) =>
    agrees_log records _

/-- What a use of a standard parser comes to, and the messages before and after it. -/
theorem agrees_use (fits : b.Fits r) (records : b.Records debug) (agree : ParsesAgree r b ev ev')
    (resolves : ResolvesAgree r b debug ev ev') {p : Parser} {input : Value}
    (parser : p.Standard r) (standard : input.Standard r) :
    Agrees b (ev.use p input) (ev'.use p input) (Derivation.AllStandard r) := by
  have deeper := agree.calls.shallower
  unfold use
  refine Agrees.ite (fun _ => Agrees.raise _) fun _ => ?_
  refine records.agrees_ite (fun _ => ?_) fun quiet => ?_
  · refine (agrees_logTrying fits records deeper parser standard).bind fun _ titled => ?_
    refine (agrees_produce fits agree resolves parser standard fun _ => titled).bind ?_
    intro found all
    refine (agrees_logProduced fits records deeper parser found.length).bind fun _ _ => ?_
    exact Agrees.pure all
  · refine agrees_produce fits agree resolves parser standard fun debug => ?_
    rw [quiet] at debug
    cases debug

end Evaluator

/-- Standard parsers come to the same end from coupled stores, the second time with as much more
depth as the written functions and the definitions of lazy parsers need to come to the same end. -/
theorem evaluator_agrees {more : Nat} (fits : b.Fits r) (records : b.Records debug)
    (written : ∀ f, r.written f → ∀ arguments : List Value, (∀ v ∈ arguments, v.Standard r) →
      ∀ n m, n + more ≤ m → Agrees b ((evaluator n).call (.function f) arguments)
        ((evaluator m).call (.function f) arguments) (Value.Standard r))
    (resolves : ∀ n m, n + more ≤ m →
      Evaluator.ResolvesAgree r b debug (evaluator n) (evaluator m))
    (n m : Nat) (deeper : n + more ≤ m) :
    Evaluator.ParsesAgree r b (evaluator n) (evaluator m) := by
  induction n generalizing m with
  | zero =>
    exact ⟨⟨Nat.zero_le _, fun _ _ _ _ => Agrees.outOfFuel⟩, fun _ _ _ _ => Agrees.outOfFuel⟩
  | succ n ih =>
    obtain ⟨m, rfl⟩ : ∃ k, m = k + 1 := ⟨m - 1, by omega⟩
    have le : n + more ≤ m := by omega
    have agree := ih m le
    have shallower : n ≤ m := Nat.le_of_add_right_le le
    refine ⟨⟨shallower, fun f arguments function all => ?_⟩, fun p input parser standard => ?_⟩
    · refine Evaluator.agrees_apply fits agree.calls ?_ function all
      intro parameters body scope reached arguments all
      exact written _ reached arguments all (n + 1) (m + 1) deeper
    · exact Evaluator.agrees_use fits records agree (resolves n m le) parser standard

end GrammarKit
