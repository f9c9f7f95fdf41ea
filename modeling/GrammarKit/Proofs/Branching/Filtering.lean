import GrammarKit.Proofs.Branching.Sequencing
import GrammarKit.Proofs.Choices.Attempts

/-! # Filtering and bracketing

A condition on the values of a parser and a pair of delimiters around a parser are both built from
sequencing, and what the last callback there hands on is the value of the parser. Sequencing takes
it for what to go on with: a value stands for itself, unless it is a parser, which is run in place
of being handed on, or the mark of an argument that was left out, which becomes the input. So of
other values filtering keeps exactly those for which the condition holds, and a value between
delimiters is the one that the parser in between has produced.
-/

namespace GrammarKit

/-- What is left of some derivations under a condition. -/
def contribution (o : Except Error Bool) (r : Except Error (List Derivation)) :
    Except Error (List Derivation) :=
  o >>= fun h => if h then r else .ok []

namespace Effects

section

variable {b : Effects} {condition v x : Value} {o : Except Error Bool} {d : Derivation}
  {r : Except Error (List Derivation)}

/-- After a derivation, the test goes on with its value, or fails. -/
theorem settles_tested (decides : b.Decides condition d.value o) (read : b.Shows d.remainder)
    (kept : o = .ok true → b.Yields (Parser.asParser d.value) d.remainder r) :
    b.Settles (fun ev => ev.continuation (.function (.test condition)) d.value d.remainder >>=
      (ev.parse · d.remainder)) (contribution o r) := by
  have called : b.Settles (fun ev =>
      ev.continuation (.function (.test condition)) d.value d.remainder) _ :=
    settles_continuation_of_gives rfl (gives_test decides)
  cases o with
  | error e => exact called.error_bind
  | ok h =>
    cases h with
    | true => exact called.bind (kept rfl).settles
    | false => exact called.bind (yields_zero read).settles

/-- If the condition holds for some of the derivations, and these contribute themselves, what
remains is the sublist of them. -/
theorem continued_contribution (keeps : Derivation → Bool) (ds : List Derivation) :
    continued (fun d => contribution (.ok (keeps d)) (.ok [d])) ds = .ok (ds.filter keeps) := by
  induction ds with
  | nil => exact continued_nil
  | cons d ds ih =>
    refine continued_cons_eq_ok_iff.mpr ?_
    cases holds : keeps d with
    | true =>
      rw [List.filter_cons_of_pos holds]
      exact ⟨[d], ds.filter keeps, rfl, ih, rfl⟩
    | false =>
      rw [List.filter_cons_of_neg (by simp [holds])]
      exact ⟨[], ds.filter keeps, rfl, ih, rfl⟩

end

variable {b c : Effects} {p : Parser} {condition x : Value} {ds : List Derivation}

section

variable {o : Derivation → Except Error Bool}
  {after : Derivation → Except Error (List Derivation)}

/-- Filtering: every derivation contributes what its value goes on with, if the condition holds for
the value. -/
theorem yields_satisfy (found : b.Yields p x (.ok ds))
    (decides : ∀ d ∈ ds, b.Decides condition d.value (o d))
    (read : ∀ d ∈ ds, b.Shows d.remainder)
    (kept : ∀ d ∈ ds, o d = .ok true → b.Yields (Parser.asParser d.value) d.remainder (after d)) :
    b.Yields (p.satisfy condition) x (continued (fun d => contribution (o d) (after d)) ds) :=
  yields_bind_of_settles found fun d member =>
    settles_tested (decides d member) (read d member) (kept d member)

/-- The same for a parser with whatever effects, after which the condition is asked. -/
theorem YieldsInto.satisfy (found : b.YieldsInto c p x (.ok ds))
    (decides : ∀ d ∈ ds, c.Decides condition d.value (o d))
    (read : ∀ d ∈ ds, c.Shows d.remainder)
    (kept : ∀ d ∈ ds, o d = .ok true → c.Yields (Parser.asParser d.value) d.remainder (after d)) :
    b.YieldsInto c (p.satisfy condition) x
      (continued (fun d => contribution (o d) (after d)) ds) :=
  found.bind fun d member =>
    settles_tested (decides d member) (read d member) (kept d member)

end

section

variable {keeps : Derivation → Bool}

/-- If the values that are kept stand for themselves, filtering keeps just these derivations. -/
theorem yields_filter (found : b.Yields p x (.ok ds))
    (decides : ∀ d ∈ ds, b.Decides condition d.value (.ok (keeps d)))
    (plain : ∀ d ∈ ds, keeps d = true → d.value.IsPlain)
    (shown : ∀ d ∈ ds, b.Shows d.value ∧ b.Shows d.remainder) :
    b.Yields (p.satisfy condition) x (.ok (ds.filter keeps)) := by
  rw [← continued_contribution]
  refine yields_satisfy found decides (fun d member => (shown d member).2) fun d member holds => ?_
  obtain ⟨value, remainder⟩ := shown d member
  exact yields_asParser (plain d member (Except.ok.inj holds)) value remainder

theorem YieldsInto.filter (found : b.YieldsInto c p x (.ok ds))
    (decides : ∀ d ∈ ds, c.Decides condition d.value (.ok (keeps d)))
    (plain : ∀ d ∈ ds, keeps d = true → d.value.IsPlain)
    (shown : ∀ d ∈ ds, c.Shows d.value ∧ c.Shows d.remainder) :
    b.YieldsInto c (p.satisfy condition) x (.ok (ds.filter keeps)) := by
  rw [← continued_contribution]
  refine found.satisfy decides (fun d member => (shown d member).2) fun d member holds => ?_
  obtain ⟨value, remainder⟩ := shown d member
  exact yields_asParser (plain d member (Except.ok.inj holds)) value remainder

end

end Effects

/-! ## Two conditions -/

/-- The function that asks `g` about what `f` holds for. -/
def Callback.both (f g : Value) : Callback :=
  .closure [⟨"v", .standard, none⟩]
    (.condition (.apply (.operator .call) [.variable "f", .variable "v"])
      (.apply (.operator .call) [.variable "g", .variable "v"]) (.literal (.bool false)))
    [("f", f), ("g", g)]

namespace Effects

variable {b c : Effects} {p : Parser} {f g v x : Value} {ds : List Derivation}

/-- A call is as true as what is called is of its arguments. -/
theorem settles_truth_call {scope : Scope} {ts : List Term} {vs : List Value}
    {r : Except Error Bool} (arguments : b.Settles (fun ev => ev.evalAll scope ts) (.ok (f :: vs)))
    (called : b.Settles (fun ev => ev.call f vs >>= fun w => Evaluator.truth w) r) :
    b.Settles (fun ev => ev.eval scope (.apply (.operator .call) ts) >>= fun w =>
      Evaluator.truth w) r := by
  let k (ev : Evaluator) (us : List Value) : Eval Bool :=
    ev.applyOperation (.operator .call) us >>= fun w => Evaluator.truth w
  have second : b.Settles (fun ev => k ev (f :: vs)) r := called
  exact (arguments.bind second).deeper fun n => bind_assoc ..

/-- Whether a condition holds decides what comes next. -/
theorem settles_condition {α : Type} {scope : Scope} {test yes no : Term} {h : Bool}
    {k : Value → Eval α} {r : Except Error α}
    (tested : b.Settles (fun ev => ev.eval scope test >>= fun w => Evaluator.truth w) (.ok h))
    (chosen : b.Settles (fun ev => ev.eval scope (if h then yes else no) >>= k) r) :
    b.Settles (fun ev => ev.eval scope (.condition test yes no) >>= k) r := by
  let next (ev : Evaluator) (h : Bool) : Eval α := ev.eval scope (if h then yes else no) >>= k
  have second : b.Settles (fun ev => next ev h) r := chosen
  refine (tested.bind second).deeper fun n => ?_
  have taken (h : Bool) :
      (if h then (evaluator n).eval scope yes else (evaluator n).eval scope no) =
        (evaluator n).eval scope (if h then yes else no) := by
    cases h <;> rfl
  change (evaluator n).meaning scope (.condition test yes no) >>= k = _
  simp only [Evaluator.meaning, taken, next, bind_assoc]

/-- Two conditions, the second one of which is asked where the first one holds. -/
theorem Decides.both {h h' : Bool} (decides : b.Decides f v (.ok h))
    (decides' : h = true → b.Decides g v (.ok h')) :
    b.Decides (.function (.both f g)) v (.ok (h && h')) := by
  let scope : Scope := [("v", v), ("f", f), ("g", g)]
  have argument : b.Settles (fun ev => ev.evalAll scope [.variable "v"]) (.ok [v]) :=
    settles_evalAll_cons (settles_variable rfl) settles_evalAll_nil
  have first : b.Settles (fun ev => ev.eval scope (.variable "f")) (.ok f) := settles_variable rfl
  have second : b.Settles (fun ev => ev.eval scope (.variable "g")) (.ok g) := settles_variable rfl
  have tested := settles_truth_call (settles_evalAll_cons first argument) decides
  have chosen : b.Settles (fun ev => ev.eval scope (if h then
      .apply (.operator .call) [.variable "g", .variable "v"] else .literal (.bool false)) >>=
      fun w => Evaluator.truth w) (.ok (h && h')) := by
    cases h with
    | true => exact settles_truth_call (settles_evalAll_cons second argument) (decides' rfl)
    | false => exact Settles.of_deep 1 fun _ _ => rfl
  refine (settles_condition tested chosen).deeper fun n => rfl

end Effects

/-! ## Between delimiters -/

/-- Whether derivations contribute one after the other, each of them from the store that the one
before it has left. -/
inductive Contribute (after : Derivation → Store → List Derivation → Store → Prop) :
    List Derivation → Store → List Derivation → Store → Prop where
  | nil {s : Store} : Contribute after [] s [] s
  | cons {d : Derivation} {ds fs gs : List Derivation} {s t u : Store} :
    after d s fs t → Contribute after ds t gs u → Contribute after (d :: ds) s (fs ++ gs) u

/-- Whether a parser comes to derivations that then contribute in turn; messages may come before and
after all that. -/
def Parser.LeadsOn (p : Parser) (x : Value)
    (after : Derivation → Store → List Derivation → Store → Prop) (s : Store)
    (fs : List Derivation) (v : Store) : Prop :=
  ∃ s' ds t u, s.Logs s' ∧ p.Ends x s' (.ok ds) t ∧ Contribute after ds t fs u ∧ u.Logs v

section

open Eval (bind_eq_ok_iff pure_eq_ok_iff)

variable {after after' : Derivation → Store → List Derivation → Store → Prop} {s t u : Store}
  {p left right : Parser} {v w x : Value} {f : Callback} {ds fs : List Derivation}

theorem Contribute.mono (contribute : Contribute after ds s fs t)
    (weaker : ∀ d s fs t, after d s fs t → after' d s fs t) : Contribute after' ds s fs t := by
  induction contribute with
  | nil => exact .nil
  | cons first _ ih => exact .cons (weaker _ _ _ _ first) ih

theorem Parser.LeadsOn.mono (leads : p.LeadsOn x after s fs t)
    (weaker : ∀ d s fs t, after d s fs t → after' d s fs t) : p.LeadsOn x after' s fs t := by
  obtain ⟨s', ds, t', u, before, ends, contribute, rest⟩ := leads
  exact ⟨s', ds, t', u, before, ends, contribute.mono weaker, rest⟩

/-- Whether a step of the library has no effects, and no value but `next` of its argument. -/
def Callback.Plain (f : Callback) (next : Value → Value) : Prop :=
  ∀ (ev : Evaluator) v rest s w t,
    ev.applyCallback f ((Value.function f).received v rest) s = .ok w t → w = next v ∧ t = s

/-- After a step without effects, every derivation contributes what its value is made into. -/
theorem Evaluator.contribute_of_continueAll {next : Value → Value} (plain : f.Plain next) {n : Nat}
    (ran : (evaluator n).continueAll (.function f) ds s = .ok fs u) :
    Contribute (fun d s fs t => (Parser.asParser (next d.value)).Ends d.remainder s (.ok fs) t)
      ds s fs u := by
  induction ds generalizing s fs with
  | nil =>
    cases ran
    exact .nil
  | cons d ds ih =>
    obtain ⟨q, s', continued, ran⟩ := bind_eq_ok_iff.mp ran
    obtain ⟨found, t, parsed, ran⟩ := bind_eq_ok_iff.mp ran
    obtain ⟨others, u', rest, ran⟩ := bind_eq_ok_iff.mp ran
    obtain ⟨rfl, rfl⟩ := pure_eq_ok_iff.mp ran
    have callable : (Value.function f).isCallable = true := rfl
    rw [continuation, if_pos callable] at continued
    obtain ⟨w, _, called, made⟩ := bind_eq_ok_iff.mp continued
    obtain ⟨rfl, rfl⟩ := pure_eq_ok_iff.mp made
    cases n with
    | zero => cases called
    | succ n =>
      obtain ⟨rfl, rfl⟩ := plain (evaluator n) d.value d.remainder s w _ called
      exact .cons ⟨n + 1, parsed⟩ (ih rest)

/-- What is found before a step without effects is followed by what the step makes of it. -/
theorem Parser.Ends.of_step {next : Value → Value} (plain : f.Plain next)
    (ends : (p.step f).Ends x s (.ok fs) u) :
    p.LeadsOn x (fun d s fs t => (Parser.asParser (next d.value)).Ends d.remainder s (.ok fs) t)
      s fs u := by
  obtain ⟨n, s', u', before, ran, last⟩ := ends.exists_process rfl rfl fun _ => ⟨fs, rfl⟩
  obtain ⟨ds, t, found, ran⟩ := bind_eq_ok_iff.mp ran
  refine ⟨s', ds, t, u', before, ⟨n, found⟩, ?_, last⟩
  cases ds with
  | nil =>
    cases ran
    exact .nil
  | cons d ds => exact Evaluator.contribute_of_continueAll plain ran

theorem Callback.plain_body (p right : Parser) :
    (Callback.body p right).Plain fun _ => .parser (p.step (.close right)) := by
  intro ev v rest s w t ran
  cases ran
  exact ⟨rfl, rfl⟩

theorem Callback.plain_close (right : Parser) :
    (Callback.close right).Plain fun v => .parser (right.step (.constant v)) := by
  intro ev v rest s w t ran
  obtain ⟨q, _, actual, ran⟩ := bind_eq_ok_iff.mp ran
  obtain ⟨rfl, rfl⟩ := pure_eq_ok_iff.mp ran
  rw [Evaluator.actual] at actual
  split at actual
  · cases actual
  · obtain ⟨rfl, rfl⟩ := pure_eq_ok_iff.mp actual
    exact ⟨rfl, rfl⟩

theorem Callback.plain_constant (v : Value) : (Callback.constant v).Plain fun _ => v := by
  intro ev w rest s w' t ran
  cases ran
  exact ⟨rfl, rfl⟩

/-- A value that stands for itself is all that comes of it. -/
theorem Parser.Ends.eq_of_isPlain (plain : v.IsPlain)
    (ends : (Parser.asParser v).Ends x s (.ok fs) t) : fs = [⟨v, x⟩] := by
  cases v with
  | parser _ | missing => exact plain.elim
  | _ =>
    obtain ⟨n, s', t', -, ran, -⟩ := ends.exists_process rfl rfl fun _ => ⟨fs, rfl⟩
    cases ran
    rfl

/-- What comes of a parser between two delimiters: every match of the left one is followed by those
of the parser, these by those of the right one, and these by what the value of the parser stands
for. -/
theorem Parser.Ends.of_between (ends : (p.between left right).Ends x s (.ok fs) u) :
    left.LeadsOn x (fun l => p.LeadsOn l.remainder fun e => right.LeadsOn e.remainder
      fun r s fs t => (Parser.asParser e.value).Ends r.remainder s (.ok fs) t) s fs u := by
  refine (ends.of_step (Callback.plain_body p right)).mono fun l s fs t body => ?_
  refine (of_step (Callback.plain_close right) body).mono fun e s fs t close => ?_
  exact of_step (Callback.plain_constant e.value) close

end

/-! ## What is handed on -/

/-- Filtering and bracketing hand on the values of the parser, whatever its effects are. By a
condition without effects each derivation is kept or not, and one that is kept contributes what its
value goes on with; if the values stand for themselves, these are just the derivations for which the
condition holds, in their order, and two conditions one after the other are as good as both at once.
Between delimiters, run after run from the store that the one before has left, every match of the
left one is followed by the derivations of the parser, and these by the matches of the right one;
each of these contributes what the parser's value goes on with, which is that value alone, if it
stands for itself. -/
theorem values_are_handed_on (p : Parser) (x : Value) :
    (∀ (b c : Effects) (ds : List Derivation) (condition : Value)
      (o : Derivation → Except Error Bool) (after : Derivation → Except Error (List Derivation)),
      b.YieldsInto c p x (.ok ds) → (∀ d ∈ ds, c.Decides condition d.value (o d)) →
      (∀ d ∈ ds, c.Shows d.remainder) →
      (∀ d ∈ ds, o d = .ok true → c.Yields (Parser.asParser d.value) d.remainder (after d)) →
        b.YieldsInto c (p.satisfy condition) x
          (continued (fun d => contribution (o d) (after d)) ds)) ∧
    (∀ (b c : Effects) (ds : List Derivation) (f g : Value) (keeps keeps' : Derivation → Bool),
      b.YieldsInto c p x (.ok ds) → (∀ d ∈ ds, c.Decides f d.value (.ok (keeps d))) →
      (∀ d ∈ ds, keeps d = true → c.Decides g d.value (.ok (keeps' d))) →
      (∀ d ∈ ds, c.Shows d.value ∧ c.Shows d.remainder) →
      (∀ d ∈ ds, keeps d = true → d.value.IsPlain) →
        b.YieldsInto c (p.satisfy f) x (.ok (ds.filter keeps)) ∧
        b.YieldsInto c ((p.satisfy f).satisfy g) x
          (.ok (ds.filter fun d => keeps d && keeps' d)) ∧
        b.YieldsInto c (p.satisfy (.function (.both f g))) x
          (.ok (ds.filter fun d => keeps d && keeps' d))) ∧
    ∀ (left right : Parser) (s u : Store) (fs : List Derivation),
      (p.between left right).Ends x s (.ok fs) u →
        left.LeadsOn x (fun l => p.LeadsOn l.remainder fun e => right.LeadsOn e.remainder
          fun r s fs t => (Parser.asParser e.value).Ends r.remainder s (.ok fs) t ∧
            (e.value.IsPlain → fs = [⟨e.value, r.remainder⟩])) s fs u := by
  refine ⟨fun b c ds condition o after found decides read kept => ?_,
    fun b c ds f g keeps keeps' found decides decides' shown plain => ⟨?_, ?_, ?_⟩,
    fun left right s u fs ends => ?_⟩
  · exact found.satisfy decides read kept
  · exact found.filter decides plain shown
  · have once := found.filter decides plain shown
    have inside : ∀ d ∈ ds.filter keeps, d ∈ ds ∧ keeps d = true := fun d member =>
      List.mem_filter.mp member
    have twice := once.filter
      (fun d member => decides' d (inside d member).1 (inside d member).2)
      (fun d member _ => plain d (inside d member).1 (inside d member).2)
      fun d member => shown d (inside d member).1
    rw [List.filter_filter] at twice
    simpa only [Bool.and_comm] using twice
  · refine found.filter (fun d member => (decides d member).both (decides' d member))
      (fun d member holds => ?_) shown
    exact plain d member (Bool.and_eq_true_iff.mp holds).1
  · refine ends.of_between.mono fun l s fs t body => body.mono fun e s fs t close => ?_
    exact close.mono fun r s fs t last => ⟨last, last.eq_of_isPlain⟩

/-- A function that records its argument in the trace. -/
def Callback.tracing : Callback :=
  .closure [⟨"v", .standard, none⟩] (.trace (.variable "v") none) []

/-- The store after two texts have been recorded. -/
def Store.afterTwo : Store :=
  { Store.initial with trace := #[.text ['a'], .text ['a', 'b']] }

theorem yieldsInto_traced : (Effects.messages Store.initial).YieldsInto
    (Effects.messages Store.afterTwo)
    ((Parser.ofShape (.splits [.int 1, .int 2])).map (.function .tracing))
    (.text ['a', 'b', 'c'])
    (.ok [⟨.text ['a'], .text ['b', 'c']⟩, ⟨.text ['a', 'b'], .text ['c']⟩]) :=
  Effects.yieldsInto_of_parse (n := 6) rfl rfl rfl

/-- A parser that records what it finds, before its values are filtered, and a parser between two
others. -/
theorem values_are_handed_on_traced :
    (Effects.messages Store.initial).YieldsInto (Effects.messages Store.afterTwo)
      (((Parser.ofShape (.splits [.int 1, .int 2])).map (.function .tracing)).equals (.text ['a']))
      (.text ['a', 'b', 'c']) (.ok [⟨.text ['a'], .text ['b', 'c']⟩]) ∧
    Parser.item.LeadsOn (.text ['a', 'b', 'c'])
      (fun l => Parser.item.LeadsOn l.remainder fun e => Parser.item.LeadsOn e.remainder
        fun r s fs t => (Parser.asParser e.value).Ends r.remainder s (.ok fs) t ∧
          (e.value.IsPlain → fs = [⟨e.value, r.remainder⟩]))
      .initial [⟨.text ['b'], .text []⟩] .initial := by
  let keeps (d : Derivation) : Bool := d.value.width == 1
  have equal : (Effects.messages Store.afterTwo).Decides (.function (.equals (.text ['a'])))
      (.text ['a']) (.ok true) := Effects.Settles.of_deep 3 fun _ _ => rfl
  have unequal : (Effects.messages Store.afterTwo).Decides (.function (.equals (.text ['a'])))
      (.text ['a', 'b']) (.ok false) := Effects.Settles.of_deep 3 fun _ _ => rfl
  have both : ∀ d ∈ [(⟨.text ['a'], .text ['b', 'c']⟩ : Derivation),
      ⟨.text ['a', 'b'], .text ['c']⟩], (Effects.messages Store.afterTwo).Decides
      (.function (.equals (.text ['a']))) d.value (.ok (keeps d)) :=
    List.forall_mem_cons.mpr ⟨equal, List.forall_mem_singleton.mpr unequal⟩
  have plain : ∀ d ∈ [(⟨.text ['a'], .text ['b', 'c']⟩ : Derivation),
      ⟨.text ['a', 'b'], .text ['c']⟩], keeps d = true → d.value.IsPlain :=
    List.forall_mem_cons.mpr ⟨fun _ => trivial, List.forall_mem_singleton.mpr fun _ => trivial⟩
  have ends : (Parser.item.between .item .item).Ends (.text ['a', 'b', 'c']) .initial
      (.ok [⟨.text ['b'], .text []⟩]) .initial := ⟨6, rfl⟩
  refine ⟨?_, (values_are_handed_on .item _).2.2 _ _ _ _ _ ends⟩
  exact ((values_are_handed_on _ _).2.1 _ _ _ _ _ keeps keeps yieldsInto_traced both
    (fun d member _ => both d member) (fun _ _ => ⟨.of_quiet rfl, .of_quiet rfl⟩) plain).1

/-- A function that is true of everything. -/
def Callback.always : Callback := .closure [⟨"v", .standard, none⟩] (.literal (.bool true)) []

/-- A parser as a value is run, even if a condition holds for it: what is found with a parser that
fails as its value is gone once it is filtered. -/
theorem satisfy_runs_parsers :
    let b := Effects.messages Store.initial
    let held : Parser := .result (.parser .zero)
    let input : Value := .text ['a', 'b', 'c']
    b.Yields held input (.ok [⟨.parser .zero, input⟩]) ∧
    b.Decides (.function .always) (.parser .zero) (.ok true) ∧
    b.Yields (held.satisfy (.function .always)) input (.ok []) ∧
    ¬ b.Yields (held.satisfy (.function .always)) input (.ok [⟨.parser .zero, input⟩]) := by
  intro b held input
  have found : b.Yields held input (.ok [⟨.parser .zero, input⟩]) :=
    Effects.yields_result (.of_quiet rfl) (.of_quiet rfl) (by nofun)
  have holds : b.Decides (.function .always) (.parser .zero) (.ok true) :=
    Effects.Settles.of_deep 4 fun _ _ => rfl
  have filtered : b.Yields (held.satisfy (.function .always)) input
      (continued (fun _ => contribution (.ok true) (.ok [])) [⟨.parser .zero, input⟩]) :=
    Effects.yields_satisfy found (List.forall_mem_singleton.mpr holds)
      (fun _ _ => .of_quiet rfl)
      (List.forall_mem_singleton.mpr fun _ => Effects.yields_zero (.of_quiet rfl))
  refine ⟨found, holds, filtered, fun kept => ?_⟩
  cases filtered.settles.unique (Store.Logs.refl _) kept.settles

end GrammarKit
