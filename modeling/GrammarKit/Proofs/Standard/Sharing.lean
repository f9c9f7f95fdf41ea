import GrammarKit.Proofs.Comparison.Deeper
import GrammarKit.Proofs.Standard.Parse

/-! # Parsers that share lazy parsers

The factory of a lazy parser is called once, for whichever copy is used first, and the definition
it makes is that of all the copies. If the factories that are still to be called make the same
definitions for all copies that there are, and callbacks have no side effects, then it does not
matter which parsers have been used before: they leave definitions that would have been made anyway.
A parser that comes to an end does so whether another one has been used or not.
-/

namespace GrammarKit

open Eval

/-- What an evaluation comes to, and that `I` holds for the store in which it ends. It runs out of
depth if that is what it always comes to, or else only if `shallow` holds. -/
inductive Eval.Ends {α : Type} (shallow : Prop) (I : Store → Prop) (x : Except Stop α) :
    EStateM.Result Stop Store α → Prop where
  | value {a : α} {t : Store} : x = .ok a → I t → Ends shallow I x (.ok a t)
  | error {e : Error} {t : Store} : x = .error (.error e) → I t →
    Ends shallow I x (.error (.error e) t)
  | exhausted {t : Store} : shallow ∨ x = .error .outOfFuel →
    Ends shallow I x (.error .outOfFuel t)

/-- A sequence comes to what its second part comes to, or to the error of the first. -/
theorem Eval.Ends.bind {α β : Type} {shallow : Prop} {I J : Store → Prop} {x : Except Stop α}
    {f : α → Except Stop β} {m : Eval α} {k : α → Eval β} {s : Store}
    (first : Ends shallow I x (m s))
    (second : ∀ a t, x = .ok a → I t → Ends shallow J (f a) (k a t)) (weaker : ∀ t, I t → J t) :
    Ends shallow J (x >>= f) ((m >>= k) s) := by
  change Ends shallow J (x >>= f) (EStateM.bind m k s)
  unfold EStateM.bind
  generalize m s = o at first
  cases first with
  | value value after =>
    subst value
    exact second _ _ rfl after
  | error failed after =>
    subst failed
    exact .error rfl (weaker _ after)
  | exhausted why =>
    rcases why with few | rfl
    · exact .exhausted (.inl few)
    · exact .exhausted (.inr rfl)

theorem Eval.Ends.mono {α : Type} {shallow : Prop} {I J : Store → Prop} {x : Except Stop α}
    {o : EStateM.Result Stop Store α} (ends : Ends shallow I x o) (weaker : ∀ t, I t → J t) :
    Ends shallow J x o := by
  cases ends with
  | value value after => exact .value value (weaker _ after)
  | error failed after => exact .error failed (weaker _ after)
  | exhausted why => exact .exhausted why

/-- The call of a factory comes to what it would come to without the notes about it. -/
theorem Eval.Ends.supply {α β : Type} {shallow : Prop} {I : Store → Prop} {x : Except Stop β}
    {f : α → β} {call : Eval α} {address : Nat} {s : Store}
    (kept : ∀ t event, I t → I (t.note address event))
    (ends : Ends shallow I x ((f <$> call) (s.note address .called))) :
    Ends shallow I x ((f <$> Store.supply address call) s) := by
  rw [map_eq_pure_bind] at ends ⊢
  cases called : call (s.note address .called) with
  | ok a t =>
    have supplied : Store.supply address call s = .ok a (t.note address .returned) := by
      simp only [Store.supply, called]
    rw [Eval.bind_of_eq_ok called] at ends
    rw [Eval.bind_of_eq_ok supplied]
    cases ends with
    | value value after => exact .value value (kept t _ after)
  | error stop t =>
    have supplied : Store.supply address call s = .error stop (t.note address .failed) := by
      simp only [Store.supply, called]
    rw [Eval.bind_of_eq_error called] at ends
    rw [Eval.bind_of_eq_error supplied]
    cases ends with
    | error failed after => exact .error failed (kept t _ after)
    | exhausted why => exact .exhausted why

/-- Evaluations that come to the same agree, if the second one is deep enough. -/
theorem Eval.Ends.agree {α : Type} {b : Coupling} {Q : α → Prop} {shallow shallow' : Prop}
    {I J : Store → Prop} {x : Except Stop α} {o o' : EStateM.Result Stop Store α}
    (left : Ends shallow I x o) (right : Ends shallow' J x o') (deep : ¬shallow')
    (holds : ∀ a, x = .ok a → Q a) (related : ∀ s t, I s → J t → b.related s t) :
    Agree b Q o o' := by
  cases left with
  | exhausted _ => exact .exhausted
  | value value after =>
    cases right with
    | value value' after' =>
      obtain rfl := Except.ok.inj (value.symm.trans value')
      exact .value (holds _ value) (related _ _ after after')
    | error failed _ => cases value.symm.trans failed
    | exhausted why => cases value.symm.trans (why.resolve_left deep)
  | error failed after =>
    cases right with
    | value value _ => cases failed.symm.trans value
    | error failed' after' =>
      obtain rfl := Stop.error.inj (Except.error.inj (failed.symm.trans failed'))
      exact .error (b.weaker _ _ (related _ _ after after'))
    | exhausted why => cases failed.symm.trans (why.resolve_left deep)

variable {r : Reach} {made : Nat → Except Stop Parser} {depth : Nat} {s t : Store}

/-- Whether `t` is what `s` may become while standard parsers are used, as far as it is within
reach: the same but for messages, result lists, and definitions that lazy parsers have got, which
are those that are `made`. What is beyond reach may be anything. -/
structure Store.Develops (r : Reach) (made : Nat → Except Stop Parser) (s t : Store) : Prop where
  standard : t.Standard r
  runtime : t.results.runtime = s.results.runtime
  debug : t.debug = s.debug
  factory : ∀ address, r.cell address →
    (t.cellAt address).factory = (s.cellAt address).factory
  inside : ∀ address, r.cell address → ∀ p, (t.cellAt address).definition = some p →
    made address = .ok p
  kept : ∀ address, r.cell address → (s.cellAt address).definition ≠ none →
    (t.cellAt address).definition ≠ none

/-- Whether result lists are the same, if there may be any in standard values. -/
def Reach.SameLists (r : Reach) (results results' : Results) : Prop := r.Lists → results = results'

theorem Reach.SameLists.refl (results : Results) : r.SameLists results results := fun _ => rfl

theorem Reach.SameLists.symm {results results' : Results} (same : r.SameLists results results') :
    r.SameLists results' results := fun lists => (same lists).symm

theorem Reach.SameLists.trans {first second third : Results} (same : r.SameLists first second)
    (same' : r.SameLists second third) : r.SameLists first third :=
  fun lists => (same lists).trans (same' lists)

namespace Store.Develops

/-- One more message. -/
theorem record (develops : s.Develops r made t) (entry : Answer) :
    s.Develops r made { t with trace := t.trace.push entry } :=
  ⟨Store.Standard.quiet t _ develops.standard, develops.runtime, develops.debug, develops.factory,
    develops.inside, develops.kept⟩

/-- One more result list. -/
theorem newResult (develops : s.Develops r made t) (lists : r.Lists) {ds : List Derivation}
    (all : ∀ d ∈ ds, d.Standard r) :
    s.Develops r made { t with results := t.results.push ds } :=
  ⟨(Store.maintains_newResult lists all t (.result t.results.size) _ develops.standard rfl).1,
    develops.runtime, develops.debug, develops.factory, develops.inside, develops.kept⟩

/-- One more note about a cell. -/
theorem note (develops : s.Develops r made t) (address : Nat) (event : CellEvent) :
    s.Develops r made (t.note address event) :=
  ⟨develops.standard.note address event, develops.runtime, develops.debug, develops.factory,
    develops.inside, develops.kept⟩

/-- One more definition. -/
theorem define (develops : s.Develops r made t) {address : Nat} {p : Parser}
    (standard : p.Standard r) (makes : made address = .ok p) :
    s.Develops r made (t.settle address p) := by
  have defines : Maintains (Store.Standard r) (Store.defineCell address p) _ :=
    Store.maintains_defineCell standard
  have after := (defines t () _ develops.standard rfl).1
  refine ⟨after, ?_, ?_, ?_, ?_, ?_⟩
  · rw [Store.results_settle, develops.runtime]
  · exact (t.debug_settle address p).trans develops.debug
  · intro other reached
    rw [Store.cellAt_settle]
    split
    · exact develops.factory other reached
    · exact develops.factory other reached
  · intro other reached q defined
    rw [Store.cellAt_settle] at defined
    split at defined
    · next same =>
      cases defined
      exact same.1 ▸ makes
    · exact develops.inside other reached q defined
  · intro other reached before
    rw [Store.cellAt_settle]
    split
    · nofun
    · exact develops.kept other reached before

end Store.Develops

/-- The coupling of all that `s` may become, with the same result lists if there may be any in
standard values. -/
def Coupling.sharing (r : Reach) (made : Nat → Except Stop Parser) (s : Store) : Coupling where
  related t t' := r.SameLists t.results t'.results ∧ s.Develops r made t ∧ s.Develops r made t'
  failed t t' := r.SameLists t.results t'.results ∧ s.Develops r made t ∧ s.Develops r made t'
  weaker _ _ related := related

theorem Coupling.fits_sharing (bounded : r.Bounded) : (sharing r made s).Fits r where
  results := by
    rintro t t' ⟨same, first, second⟩
    refine ⟨?_, first.standard.results⟩
    by_cases lists : r.Lists
    · exact .inl (same lists)
    · exact .inr ⟨second.runtime.trans first.runtime.symm, bounded, lists⟩
  newResult := by
    rintro lists ds all t t' ⟨same, first, second⟩
    have value : (Value.result t.results.size).Standard r :=
      first.standard.results.fresh lists _ (Nat.le_refl _)
    have after := second.newResult lists all
    rw [← same lists] at after
    change Agree _ _ (EStateM.Result.ok (Value.result t.results.size) _)
      (EStateM.Result.ok (Value.result t'.results.size) _)
    rw [← same lists]
    exact .value value ⟨.refl _, first.newResult lists all, after⟩

theorem Coupling.records_sharing : (sharing r made s).Records s.debug where
  left _ _ related := related.2.1.debug
  right _ _ related := related.2.2.debug
  record entry _ _ related := .value trivial
    ⟨related.1, related.2.1.record entry, related.2.2.record entry⟩

/-- Whether the definitions of the lazy parsers within reach are those that are `made`. Where there
is none yet, the factory makes it, without side effects, whichever copy within reach it is called
for, and needs no more depth than `depth` for that, unless it never comes to an end. -/
structure Store.Uniform (r : Reach) (made : Nat → Except Stop Parser) (depth : Nat) (s : Store) :
    Prop where
  ready : ∀ address, r.cell address →
    (s.cellAt address).definition ≠ none ∨ (s.cellAt address).factory ≠ none
  standard : ∀ address p, r.cell address → made address = .ok p → p.Standard r
  makes : ∀ address factory, r.cell address → s.cellAt address = ⟨some factory, none⟩ →
    ∀ t, s.Develops r made t → ∀ mapping name,
      (Value.parser (.node (.lazy address) mapping name)).Standard r → ∀ n,
        Ends (n < depth) (fun t' => r.SameLists t'.results t.results ∧ s.Develops r made t')
          (made address) ((Parser.asParser <$> (evaluator n).call factory
            ([.parser (.node (.lazy address) mapping name)].take (factory.arity 1))) t)

/-- A lazy parser that is titled can be shown. -/
theorem Parser.IsTitled.display_lazy {results : Results} {n address : Nat}
    {mapping name : Option Value} (titled : (node (.lazy address) mapping name).IsTitled) :
    ∃ text, (Value.parser (node (.lazy address) mapping name)).display results n = .ok text := by
  cases name with
  | none => cases n <;> exact ⟨_, rfl⟩
  | some v =>
    obtain ⟨cs, rfl⟩ := titled v rfl
    cases n <;> exact ⟨_, rfl⟩

/-- The message after a lazy parser has got its definition. -/
theorem Store.Develops.ends_logResolved (develops : s.Develops r made t) {address : Nat}
    {mapping name : Option Value}
    (titled : s.debug = true → (Parser.node (.lazy address) mapping name).IsTitled) (n : Nat)
    (p : Parser) (shallow : Prop) :
    Ends shallow (fun t' => r.SameLists t'.results t.results ∧ s.Develops r made t') (.ok p) ((do
      if (← get).debug then
        (evaluator n).logResolved address (.parser (.node (.lazy address) mapping name))
      return p : Eval Parser) t) := by
  change Ends _ _ _ ((if t.debug then
    (evaluator n).logResolved address (.parser (.node (.lazy address) mapping name)) >>=
      fun _ => pure p
    else pure () >>= fun _ => pure p) t)
  cases debug : t.debug with
  | true =>
    obtain ⟨text, shows⟩ : ∃ text, (Value.parser (.node (.lazy address) mapping name)).display
        t.results.unlimited (evaluator n).fuel = .ok text :=
      (titled (develops.debug ▸ debug)).display_lazy
    have shown : (evaluator n).describe (.parser (.node (.lazy address) mapping name)) t =
        .ok text t := Evaluator.describe_eq_ok_iff.mpr ⟨shows, rfl⟩
    rw [if_pos rfl, Evaluator.logResolved, bind_assoc, Eval.bind_of_eq_ok shown]
    exact .value rfl ⟨.refl _, (develops.record _).note address .told⟩
  | false => exact .value rfl ⟨.refl _, develops⟩

/-- The definition of a lazy parser is the one that is made, in whatever the store has become. -/
theorem Store.Uniform.ends_resolve (uniform : s.Uniform r made depth)
    (develops : s.Develops r made t) {address : Nat} {mapping name : Option Value}
    (reached : r.cell address)
    (owner : (Value.parser (.node (.lazy address) mapping name)).Standard r)
    (titled : s.debug = true → (Parser.node (.lazy address) mapping name).IsTitled) (n : Nat) :
    Ends (n < depth) (fun t' => r.SameLists t'.results t.results ∧ s.Develops r made t')
      (made address)
      ((evaluator n).resolve address (.parser (.node (.lazy address) mapping name)) t) := by
  cases defined : (t.cellAt address).definition with
  | some p =>
    rw [Evaluator.resolve_of_defined defined]
    exact .value (develops.inside address reached p defined) ⟨.refl _, develops⟩
  | none =>
    have before : (s.cellAt address).definition = none := by
      cases already : (s.cellAt address).definition with
      | none => rfl
      | some q => exact absurd defined (develops.kept address reached (by simp [already]))
    obtain ⟨factory, makes⟩ := Option.ne_none_iff_exists'.mp
      ((uniform.ready address reached).resolve_left fun given => given before)
    have waiting : s.cellAt address = ⟨some factory, none⟩ := by rw [← makes, ← before]
    rw [Evaluator.resolve_of_undefined defined ((develops.factory address reached).trans makes)]
    have called := uniform.makes address factory reached waiting _ (develops.note address .called)
      mapping name owner n
    have supplied := called.supply fun t' event after =>
      ⟨after.1, after.2.note address event⟩
    have whole := supplied.bind (f := .ok) (J := fun t' => r.SameLists t'.results t.results ∧ _)
      (k := fun p => do
        Store.defineCell address p
        if (← get).debug then
          (evaluator n).logResolved address (.parser (.node (.lazy address) mapping name))
        return p) (fun p t' makes after => ?_) fun _ after => after
    · rw [show made address >>= .ok = made address from bind_pure _] at whole
      exact whole
    · obtain ⟨same, develops⟩ := after
      have standard := uniform.standard address p reached makes
      have ends := (develops.define standard makes).ends_logResolved titled n p (n < depth)
      rw [Store.results_settle] at ends
      exact ends.mono fun u told => ⟨told.1.trans same, told.2⟩

/-- Lazy parsers agree on their definitions, whatever has been used before. -/
theorem Store.Uniform.resolvesAgree (uniform : s.Uniform r made depth) (n m : Nat)
    (deeper : n + depth ≤ m) :
    Evaluator.ResolvesAgree r (Coupling.sharing r made s) s.debug (evaluator n) (evaluator m) := by
  intro address mapping name reached owner titled t t' related
  obtain ⟨same, first, second⟩ := related
  have left := uniform.ends_resolve first reached owner titled n
  have right := uniform.ends_resolve second reached owner titled m
  exact left.agree right (by omega) (fun p makes => uniform.standard address p reached makes)
    fun u u' after after' => ⟨after.1.trans (same.trans after'.1.symm), after.2, after'.2⟩

/-- Whether the written functions within reach have no side effects but on what they make
themselves, and give the same whichever lazy parsers have been used before, when they are called
with as much more depth as it takes to make a definition. -/
structure Reach.Undisturbed (r : Reach) (made : Nat → Except Stop Parser) (depth : Nat)
    (s : Store) : Prop where
  bounded : r.Bounded
  calls : ∀ f, r.written f → ∀ arguments : List Value, (∀ v ∈ arguments, v.Standard r) →
    ∀ n m, n + depth ≤ m →
      Agrees (Coupling.sharing r made s) ((evaluator n).call (.function f) arguments)
        ((evaluator m).call (.function f) arguments) (Value.Standard r)

/-- What a parser has left is a store that may be developed further. -/
theorem Eval.Agree.develops {α : Type} {Q : α → Prop} {o o' : EStateM.Result Stop Store α}
    {x : Except Error α} (agree : Agree (Coupling.sharing r made s) Q o o')
    (ends : ended o = some x) : s.Develops r made (afterwards o) := by
  cases agree with
  | value _ related => exact related.2.1
  | error failed => exact failed.2.1
  | exhausted => cases ends

/-- What a parser comes to, and that it comes to an end, does not depend on whether another one has
been used before, also if they share lazy parsers that are only then defined and refer to
themselves, as long as a factory that is called then makes the same definition for all copies that
there are. Only where result lists are among the values, the other parser must not leave new ones.
-/
theorem parse_ended_iff_after_parse (uniform : s.Uniform r made depth)
    (start : s.Develops r made s) (undisturbed : r.Undisturbed made depth s) {p q : Parser}
    {x y : Value} (parser : p.Standard r) (input : x.Standard r) (other : q.Standard r)
    (otherInput : y.Standard r) {k : Nat} {o : Except Error (List Derivation)}
    (before : ended ((evaluator k).parse q y s) = some o)
    (lists : r.SameLists s.results (afterwards ((evaluator k).parse q y s)).results)
    (a : Except Error (List Derivation)) :
    (Deep fun n => ended ((evaluator n).parse p x s) = some a) ↔
      Deep fun n =>
        ended ((evaluator n).parse p x (afterwards ((evaluator k).parse q y s))) = some a := by
  have agree (n m : Nat) (deeper : n + depth ≤ m) :=
    evaluator_agrees (Coupling.fits_sharing undisturbed.bounded) Coupling.records_sharing
      undisturbed.calls uniform.resolvesAgree n m deeper
  have run := (agree k (k + depth) (Nat.le_refl _)).parses q y other otherInput s s
    ⟨.refl _, start, start⟩
  have after := run.develops before
  constructor
  · rintro ⟨n, alone⟩
    refine ⟨n + depth, fun m deeper => ?_⟩
    have same := (agree n m deeper).parses p x parser input s _ ⟨lists, start, after⟩
    exact same.ended_eq (alone n (Nat.le_refl n))
  · rintro ⟨n, later⟩
    refine ⟨n + depth, fun m deeper => ?_⟩
    have same := (agree n m deeper).parses p x parser input _ s ⟨lists.symm, after, start⟩
    exact same.ended_eq (later n (Nat.le_refl n))

/-- A factory that refers to the lazy parser it is called for: after an opening parenthesis, the
lazy parser again, or else `x`. -/
def openingFactory : Callback :=
  .closure [⟨"self", .standard, none⟩]
    (.apply (.method .orElse)
      [.apply (.method .andThen) [.apply (.make .char) [.literal (.text ['('])], .variable "self"],
        .literal (.text ['x'])]) []

/-- What the factory makes. -/
def opening (self : Value) : Parser :=
  ((Parser.charText ['(']).bind self (.bool false)).orElse [.text ['x']]

/-- What the factory gives when it is called. -/
def openingFor : List Value → Except Error Value
  | [.none] => .error .missingContinuation
  | [v] => .ok (.parser (opening v))
  | _ => .error .wrongKind

/-- What refers to no function but `openingFactory`, to no result list, and to no copy of the lazy
parser but the one without mapping and name. -/
def openingReach : Reach :=
  ⟨(· = openingFactory), (· = 0), fun _ mapping name => mapping = none ∧ name = none,
    fun _ => False, []⟩

/-- A store with a lazy parser that has not been used. -/
def openingStore : Store where
  results := {}
  cells := #[⟨some (.function openingFactory), none⟩]
  globals := []
  trace := #[]
  debug := true

theorem openingFactory_call (n : Nat) (t : Store) (arguments : List Value) :
    n < 5 ∧ (evaluator n).call (.function openingFactory) arguments t = .error .outOfFuel t ∨
      (evaluator n).call (.function openingFactory) arguments t =
        (liftM (openingFor arguments) : Eval Value) t := by
  match n, arguments with
  | 0, _ => exact .inl ⟨by decide, rfl⟩
  | n + 1, [] => exact .inr rfl
  | n + 1, v :: _ :: _ => cases v <;> exact .inr rfl
  | 1, [_] | 2, [_] | 3, [_] | 4, [_] => exact .inl ⟨by decide, rfl⟩
  | 5, [v] | n + 6, [v] => cases v <;> exact .inr rfl

theorem opening_standard {v : Value} (standard : v.Standard openingReach) :
    (opening v).Standard openingReach := by
  simp [opening, standard]

theorem openingFor_standard {arguments : List Value} {v : Value}
    (all : ∀ w ∈ arguments, w.Standard openingReach) (given : openingFor arguments = .ok v) :
    v.Standard openingReach := by
  unfold openingFor at given
  split at given
  · cases given
  · cases given
    exact opening_standard (all _ List.mem_cons_self)
  · cases given

/-- The lazy parser itself. -/
def openings : Parser := .ofShape (.lazy 0)

theorem openings_standard : openings.Standard openingReach := ⟨rfl, trivial, trivial, rfl, rfl⟩

theorem openingStore_uniform :
    openingStore.Uniform openingReach (fun _ => .ok (opening (.parser openings))) 5 where
  ready := by
    rintro _ rfl
    exact .inr (by nofun)
  standard := by
    rintro address p _ makes
    cases makes
    exact opening_standard openings_standard
  makes := by
    rintro _ factory rfl given t develops mapping name ⟨-, -, -, rfl, rfl⟩ n
    cases given
    change Ends _ _ _ ((Parser.asParser <$> (evaluator n).call (.function openingFactory)
      [.parser openings]) t)
    rw [map_eq_pure_bind]
    rcases openingFactory_call n t [.parser openings] with ⟨few, called⟩ | called
    · rw [Eval.bind_of_eq_error called]
      exact .exhausted (.inl few)
    · rw [Eval.bind_of_eq_ok called]
      exact .value rfl ⟨.refl _, develops⟩

theorem openingStore_develops :
    openingStore.Develops openingReach (fun _ => .ok (opening (.parser openings)))
      openingStore := by
  refine ⟨⟨⟨?_, ?_⟩, ?_, ?_, rfl⟩, rfl, rfl, fun _ _ => rfl, ?_, fun _ _ given => given⟩
  · exact fun address reached => reached.elim
  · exact fun ⟨_, reached⟩ => reached.elim
  · rintro _ rfl _
    exact rfl
  · rintro _ rfl p defined
    cases defined
  · rintro _ rfl p defined
    cases defined

theorem openingReach_undisturbed :
    openingReach.Undisturbed (fun _ => .ok (opening (.parser openings))) 5 openingStore where
  bounded := by
    rintro _ rfl
    exact ⟨⟨trivial, trivial⟩, trivial⟩
  calls := by
    rintro _ rfl arguments all n m deeper t t' related
    rcases openingFactory_call n t arguments with ⟨-, called⟩ | called
    · rw [called]
      exact .exhausted
    · have called' := (openingFactory_call m t' arguments).resolve_left fun few => by omega
      rw [called, called']
      exact Agrees.lift (fun _ given => openingFor_standard all given) t t' related

/-- A lazy parser that refers to itself, used after another parser that contains it has been, for
which the definition was made. -/
theorem parse_ended_after_other_use :
    let other := openings.orElse [.text ['y']]
    let left := afterwards ((evaluator 12).parse other (.text ['(']) openingStore)
    (left.cellAt 0).definition ≠ none ∧
      Deep fun n => ended ((evaluator n).parse openings (.text ['(', '(']) left) =
        some (.ok [⟨.text ['x'], .text []⟩]) := by
  intro other left
  refine ⟨by nofun, ?_⟩
  have other : other.Standard openingReach :=
    Parser.standard_orElse.mpr ⟨openings_standard, by simp⟩
  have alone : Deep fun n => ended ((evaluator n).parse openings (.text ['(', '('])
      openingStore) = some (.ok [⟨.text ['x'], .text []⟩]) := by
    have here : ended ((evaluator 16).parse openings (.text ['(', '(']) openingStore) =
      some (.ok [⟨.text ['x'], .text []⟩]) := rfl
    refine (Evaluator.parse_lasts fun t stops => ?_).mono fun n same => (congrArg _ same).trans here
    rw [stops] at here
    cases here
  exact (parse_ended_iff_after_parse openingStore_uniform openingStore_develops
    openingReach_undisturbed openings_standard (x := .text ['(', '(']) trivial other
    (y := .text ['(']) trivial (k := 12) rfl (fun ⟨_, reached⟩ => reached.elim) _).mp alone

/-! ## A factory that is not uniform -/

/-- The same factory, but that the lazy parser is what a function gives. -/
def nestingFactory : Callback :=
  .closure [⟨"self", .standard, none⟩]
    (.apply (.method .orElse)
      [.apply (.method .andThen) [.apply (.make .char) [.literal (.text ['('])],
          .function [⟨"_", .standard, none⟩] (.variable "self")],
        .literal (.text ['x'])]) []

/-- A function that appends an exclamation mark. -/
def exclaiming : Callback :=
  .closure [⟨"v", .standard, none⟩]
    (.apply (.operator .add) [.variable "v", .literal (.text ['!'])]) []

/-- A store with a lazy parser that has not been used and refers to itself. -/
def nestingStore : Store where
  results := {}
  cells := #[⟨some (.function nestingFactory), none⟩]
  globals := []
  trace := #[]
  debug := false

/-- If a mapped copy is used first, the definition refers to that copy, and its mapping is applied
at each level but the first one. -/
theorem parse_depends_on_copy_used_first :
    let mapped := Parser.node (.lazy 0) (some (.function exclaiming)) none
    let left := afterwards ((evaluator 9).parse mapped (.text []) nestingStore)
    let whole := ended ((evaluator 16).parse (.ofShape (.lazy 0)) (.text ['(', '(']) nestingStore)
    let whole' := ended ((evaluator 16).parse (.ofShape (.lazy 0)) (.text ['(', '(']) left)
    whole = some (.ok [⟨.text ['x'], .text []⟩]) ∧
      whole' = some (.ok [⟨.text ['x', '!', '!'], .text []⟩]) :=
  ⟨rfl, rfl⟩

end GrammarKit
