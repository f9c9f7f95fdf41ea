import GrammarKit.Proofs.Depth
import GrammarKit.Proofs.Standard.Combinators
import GrammarKit.Proofs.Store
import GrammarKit.Proofs.Within.Locality

/-! # Calls on standard values

What a function gives for standard arguments is the same in stores that are coupled, and it is
standard. For the functions written in terms this is asked of the reach; for the steps of the
library's own combinators it follows from how they are made: they read the result lists and call
functions again. Coupled stores have their result lists in common, or else no standard value refers
to any, and then it makes no difference which ones there are.

With a store coupled to itself, calls of standard functions keep it standard.
-/

namespace GrammarKit

open Eval

variable {r : Reach} {b : Coupling}

/-- Whether result lists make no difference to standard values: they are the same, or there are none
in standard values, however these are made, and the runtime is the same. -/
def Results.Indistinct (r : Reach) (results results' : Results) : Prop :=
  results = results' ∨ results'.runtime = results.runtime ∧ r.Bounded ∧ ¬r.Lists

/-- Whether the result lists of coupled stores make no difference to standard values and are
standard, and the stores remain coupled when a new one is added to both. -/
structure Coupling.Fits (r : Reach) (b : Coupling) : Prop where
  results : ∀ s t, b.related s t → s.results.Indistinct r t.results ∧ s.results.Standard r
  newResult : r.Lists → ∀ ds : List Derivation, (∀ d ∈ ds, d.Standard r) →
    Agrees b (Store.newResult ds) (Store.newResult ds) (Value.Standard r)

/-- What is made of result lists by looking at those within reach is the same. -/
theorem Results.Indistinct.look_eq {α : Type} {results results' : Results} {f : Results → α}
    (same : results.Indistinct r results') (looks : r.Bounded → Results.Local r.bounds f) :
    f results' = f results := by
  rcases same with rfl | ⟨runtime, bounded, none⟩
  · rfl
  · exact looks bounded results results' (fun address reached => absurd ⟨address, reached⟩ none)
      ⟨runtime, fun address reached => absurd ⟨address, reached⟩ none⟩

section

variable {α γ : Type} {Q : α → Prop} {P : γ → Prop}

/-- What looks at the result lists within reach agrees if it does for the same ones. -/
theorem Coupling.Fits.reading (fits : b.Fits r) {f g : Results → Eval α}
    (each : ∀ results : Results, results.Standard r → Agrees b (f results) (g results) Q)
    (looks : r.Bounded → Results.Local r.bounds g) :
    Agrees b (Store.readResults >>= f) (Store.readResults >>= g) Q := by
  intro s t related
  obtain ⟨same, standard⟩ := fits.results s t related
  change Agree b Q (f s.results s) (g t.results t)
  rw [same.look_eq looks]
  exact each s.results standard s t related

/-- What comes after a computation from the result lists within reach. -/
theorem Coupling.Fits.look (fits : b.Fits r) {f : Results → Except Error γ} {k k' : γ → Eval α}
    (looks : r.Bounded → Results.Local r.bounds f)
    (value : ∀ results : Results, results.Standard r → ∀ a, f results = .ok a → P a)
    (next : ∀ a, P a → Agrees b (k a) (k' a) Q) :
    Agrees b (Store.readResults >>= fun results => liftM (f results) >>= k)
      (Store.readResults >>= fun results => liftM (f results) >>= k') Q :=
  fits.reading (fun results store => (Agrees.lift (value results store)).bind next)
    fun bounded => (looks bounded).map fun x => liftM x >>= k'

/-- What comes after two computations from the result lists within reach, the second one with what
the first one has found. -/
theorem Coupling.Fits.lookTwice {δ : Type} {R : δ → Prop} (fits : b.Fits r)
    {f : Results → Except Error γ} {g : Results → γ → Except Error δ} {k k' : δ → Eval α}
    (looks : r.Bounded → Results.Local r.bounds f)
    (value : ∀ results : Results, results.Standard r → ∀ a, f results = .ok a → P a)
    (looks' : ∀ a, P a → r.Bounded → Results.Local r.bounds fun results => g results a)
    (value' : ∀ results : Results, results.Standard r → ∀ a, P a → ∀ c, g results a = .ok c → R c)
    (next : ∀ c, R c → Agrees b (k c) (k' c) Q) :
    Agrees b
      (Store.readResults >>= fun results => liftM (f results) >>= fun a =>
        liftM (g results a) >>= k)
      (Store.readResults >>= fun results => liftM (f results) >>= fun a =>
        liftM (g results a) >>= k') Q := by
  intro s t related
  obtain ⟨same, standard⟩ := fits.results s t related
  have first := same.look_eq looks
  change Agree b Q ((liftM (f s.results) >>= fun a => liftM (g s.results a) >>= k) s)
    ((liftM (f t.results) >>= fun a => liftM (g t.results a) >>= k') t)
  rw [first]
  refine (Agrees.lift (value s.results standard)).bind (fun a found => ?_) s t related
  have second := same.look_eq (looks' a found)
  rw [second]
  exact (Agrees.lift (value' s.results standard a found)).bind next

/-- A computation from the result lists within reach. -/
theorem Coupling.Fits.observe (fits : b.Fits r) {f : Results → Except Error α}
    (looks : r.Bounded → Results.Local r.bounds f)
    (value : ∀ results : Results, results.Standard r → ∀ a, f results = .ok a → Q a) :
    Agrees b (Store.readResults >>= fun results => liftM (f results))
      (Store.readResults >>= fun results => liftM (f results)) Q :=
  fits.reading (fun results store => Agrees.lift (value results store))
    fun bounded => (looks bounded).map fun x => liftM x

/-- A computation from the result lists within reach, the second time with more depth. -/
theorem Coupling.Fits.observeStop (fits : b.Fits r) {f g : Results → Except Stop α}
    (looks : r.Bounded → Results.Local r.bounds g)
    (sooner : ∀ results, Sooner (f results) (g results))
    (value : ∀ results : Results, results.Standard r → ∀ a, f results = .ok a → Q a) :
    Agrees b (Store.readResults >>= fun results => liftM (f results))
      (Store.readResults >>= fun results => liftM (g results)) Q :=
  fits.reading (fun results store => Agrees.liftStop (sooner results) (value results store))
    fun bounded => (looks bounded).map fun x => liftM x

end

namespace Store

/-- A new result list holds the derivations it was made with, at an address within reach. -/
theorem maintains_newResult (lists : r.Lists) {ds : List Derivation}
    (all : ∀ d ∈ ds, d.Standard r) :
    Maintains (Store.Standard r) (newResult ds) (Value.Standard r) := by
  intro s v t standard made
  cases made
  refine ⟨⟨⟨?_, ?_⟩, standard.factory, standard.definition, standard.globals⟩, ?_⟩
  · intro address reached d member
    rw [Results.read_push] at member
    split at member
    · exact all d member
    · exact standard.results.read address reached d member
  · intro _ address beyond
    exact standard.results.fresh lists address (by simp at beyond; omega)
  · exact standard.results.fresh lists _ (Nat.le_refl _)

theorem Standard.note {s : Store} (standard : s.Standard r) (address : Nat) (event : CellEvent) :
    (s.note address event).Standard r :=
  ⟨standard.results, standard.factory, standard.definition, standard.globals⟩

/-- What the call of a factory keeps standard, it keeps standard with the notes about it. -/
theorem maintains_supply {α : Type} {x : Eval α} {Q : α → Prop} (address : Nat)
    (call : Maintains (Store.Standard r) x Q) :
    Maintains (Store.Standard r) (supply address x) Q := by
  intro s a t start success
  unfold supply at success
  cases found : x (s.note address .called) with
  | ok b u =>
    rw [found] at success
    cases success
    obtain ⟨after, holds⟩ := call _ a u (start.note address .called) found
    exact ⟨after.note address .returned, holds⟩
  | error stop u =>
    rw [found] at success
    cases success

/-- A cell within reach may be given a standard definition. -/
theorem maintains_defineCell {address : Nat} {p : Parser} (standard : p.Standard r) :
    Maintains (Store.Standard r) (defineCell address p) fun _ => True := by
  refine Maintains.update (fun s start => ⟨?_, ?_, ?_, ?_⟩) trivial
  · rw [Store.results_settle]
    exact start.results
  · intro other reached
    rw [Store.cellAt_settle]
    split
    · exact fun undefined => (nomatch undefined)
    · exact start.factory other reached
  · intro other reached q defined
    rw [Store.cellAt_settle] at defined
    split at defined
    · cases defined
      exact standard
    · exact start.definition other reached q defined
  · rw [Store.globals_settle]
    exact start.globals

end Store

namespace Evaluator

variable {ev ev' : Evaluator}

/-- Whether the calls of two evaluators, the second one no less deep than the first, agree on
standard functions and arguments. -/
structure CallsAgree (r : Reach) (b : Coupling) (ev ev' : Evaluator) : Prop where
  shallower : ev.fuel ≤ ev'.fuel
  calls : ∀ f (arguments : List Value), f.Standard r → (∀ v ∈ arguments, v.Standard r) →
    Agrees b (ev.call f arguments) (ev'.call f arguments) (Value.Standard r)

theorem agrees_truth (fits : b.Fits r) {v : Value} (standard : v.Standard r) :
    Agrees b (truth v) (truth v) fun _ => True :=
  fits.reading (fun _ _ => Agrees.pure trivial) fun bounded =>
    (Value.local_truth (standard.within bounded)).map pure

theorem agrees_equal (fits : b.Fits r) (deeper : ev.fuel ≤ ev'.fuel) {v w : Value}
    (left : v.Standard r) (right : w.Standard r) :
    Agrees b (ev.equal v w) (ev'.equal v w) fun _ => True :=
  fits.observeStop
    (fun bounded => Value.local_equal _ (left.within bounded) (right.within bounded))
    (fun _ => Value.sooner_equal deeper v w) fun _ _ _ _ => trivial

theorem agrees_isMember (fits : b.Fits r) (deeper : ev.fuel ≤ ev'.fuel) {v : Value}
    {members : List Value} (standard : v.Standard r) (all : ∀ w ∈ members, w.Standard r) :
    Agrees b (ev.isMember v members) (ev'.isMember v members) fun _ => True := by
  refine Agrees.ite (fun _ => ?_) fun _ => Agrees.raise _
  exact fits.observeStop (fun bounded => Value.local_anyEqual _ (standard.within bounded)
      fun w member => (all w member).within bounded)
    (fun _ => Value.sooner_anyEqual deeper v members) fun _ _ _ _ => trivial

theorem agrees_actual {p : Parser} (standard : p.Standard r) :
    Agrees b (actual p) (actual p) (Parser.Standard r) :=
  Agrees.ite (fun _ => Agrees.raise _) fun _ => Agrees.pure standard

theorem agrees_add (fits : b.Fits r) {v w : Value} (left : v.Standard r) (right : w.Standard r) :
    Agrees b (add v w) (add v w) (Value.Standard r) := by
  unfold add
  split
  · refine fits.reading (fun results store => fits.newResult ⟨_, left⟩ _ ?_) fun _ => ?_
    · exact List.forall_mem_append.mpr ⟨store.read _ left, store.read _ right⟩
    · exact fun results results' _ same => by
        rw [same.read _ (show r.result _ from left), same.read _ (show r.result _ from right)]
  · exact Agrees.raise _
  · exact Agrees.lift fun _ sum => Value.hereditary_standard.add left right sum

theorem agrees_foldStep (fits : b.Fits r) (agree : CallsAgree r b ev ev') {x pair : Value}
    (first : x.Standard r) (standard : pair.Standard r) :
    Agrees b (ev.foldStep x pair) (ev'.foldStep x pair) (Value.Standard r) := by
  refine fits.look (fun bounded => Value.local_unpair (standard.within bounded))
    (fun _ store _ items => Value.hereditary_standard.unpair store.all standard items) ?_
  rintro ⟨f, y⟩ ⟨operator, operand⟩
  exact agree.calls f [x, y] operator (by simp [first, operand])

theorem agrees_foldLeft (fits : b.Fits r) (agree : CallsAgree r b ev ev') (pairs : List Value) :
    ∀ x : Value, x.Standard r → (∀ v ∈ pairs, v.Standard r) →
      Agrees b (ev.foldLeft x pairs) (ev'.foldLeft x pairs) (Value.Standard r) := by
  induction pairs with
  | nil => exact fun x first _ => Agrees.pure first
  | cons pair pairs ih =>
    intro x first all
    refine (agrees_foldStep fits agree first (all pair List.mem_cons_self)).bind fun y next => ?_
    exact ih y next fun v member => all v (List.mem_cons_of_mem _ member)

theorem agrees_foldResult (fits : b.Fits r) (agree : CallsAgree r b ev ev') {address : Nat}
    (reached : r.result address) (fuel : Nat) :
    ∀ (fuel' i : Nat) (x : Value), fuel ≤ fuel' → x.Standard r →
      Agrees b (ev.foldResult address fuel i x) (ev'.foldResult address fuel' i x)
        (Value.Standard r) := by
  induction fuel with
  | zero => exact fun _ _ _ _ _ => Agrees.outOfFuel
  | succ fuel ih =>
    intro fuel' i x deeper first
    obtain ⟨fuel', rfl⟩ : ∃ k, fuel' = k + 1 := ⟨fuel' - 1, by omega⟩
    rw [foldResult, foldResult]
    refine fits.reading (fun results store => ?_) fun _ results results' _ same => by
      rw [same.read address reached]
    split
    · exact Agrees.pure first
    · next d found =>
      have standard := store.read address reached d (List.mem_of_getElem? found)
      refine (agrees_foldStep fits agree first standard.toValue).bind fun y next => ?_
      exact ih fuel' (i + 1) y (Nat.le_of_succ_le_succ deeper) next

theorem agrees_itemOf (fits : b.Fits r) {pair : Value} (i : Int) (standard : pair.Standard r) :
    Agrees b (itemOf pair i) (itemOf pair i) (Value.Standard r) :=
  fits.observe (fun bounded => Value.local_index (standard.within bounded) _)
    fun _ store _ item => Value.hereditary_standard.index store.all standard item

theorem agrees_foldRight (fits : b.Fits r) (agree : CallsAgree r b ev ev') {x : Value}
    (first : x.Standard r) (pairs : List Value) :
    ∀ gathered : Value, gathered.Standard r → (∀ v ∈ pairs, v.Standard r) →
      Agrees b (ev.foldRight x gathered pairs) (ev'.foldRight x gathered pairs)
        (Value.Standard r) := by
  induction pairs with
  | nil => exact fun gathered last _ => Agrees.pure last
  | cons pair before ih =>
    intro gathered last all
    rw [foldRight, foldRight]
    have rest := fun v member => all v (List.mem_cons_of_mem _ member)
    refine (agrees_itemOf fits 0 (all pair List.mem_cons_self)).bind fun f operator => ?_
    cases before with
    | nil =>
      refine (agree.calls f [x, gathered] operator (by simp [first, last])).bind fun y next => ?_
      exact ih y next rest
    | cons previous others =>
      refine (agrees_itemOf fits 1 (rest previous List.mem_cons_self)).bind fun y operand => ?_
      refine (agree.calls f [y, gathered] operator (by simp [operand, last])).bind fun z next => ?_
      exact ih z next rest

/-- Folding over standard operands gives a standard value. -/
theorem agrees_foldOperands (fits : b.Fits r) (agree : CallsAgree r b ev ev') (rightmost : Bool)
    {x steps : Value} (first : x.Standard r) (standard : steps.Standard r) :
    Agrees b (ev.foldOperands rightmost x steps) (ev'.foldOperands rightmost x steps)
      (Value.Standard r) := by
  unfold foldOperands
  split
  · refine (agrees_truth fits standard).bind fun some _ => Agrees.ite (fun _ => ?_) fun _ => ?_
    · refine fits.look (fun bounded => Value.local_items (standard.within bounded))
        (fun _ store _ items => Value.hereditary_standard.items store.all standard items) ?_
      intro pairs all
      have backwards : ∀ v ∈ pairs.reverse, v.Standard r :=
        fun v member => all v (List.mem_reverse.mp member)
      cases reversed : pairs.reverse with
      | nil => exact Agrees.pure first
      | cons last before =>
        rw [reversed] at backwards
        refine (agrees_itemOf fits 1 (backwards last List.mem_cons_self)).bind fun y operand => ?_
        exact agrees_foldRight fits agree first _ y operand backwards
    · exact Agrees.pure first
  · split
    · exact agrees_foldResult fits agree standard _ _ _ x agree.shallower first
    · refine fits.look (fun bounded => Value.local_items (standard.within bounded))
        (fun _ store _ items => Value.hereditary_standard.items store.all standard items) ?_
      exact fun pairs all => agrees_foldLeft fits agree pairs x first all

theorem agrees_joinSpelled (fits : b.Fits r) {expected head tail : Value} (first : head.Standard r)
    (others : tail.Standard r) :
    Agrees b (joinSpelled expected head tail) (joinSpelled expected head tail)
      (Value.Standard r) := by
  unfold joinSpelled
  split
  · exact agrees_add fits first others
  · refine fits.look (fun bounded => Value.local_items (others.within bounded))
      (fun _ store _ items => Value.hereditary_standard.items store.all others items) ?_
    intro vs all
    exact Agrees.pure ((Value.allStandard_iff _).mpr (List.forall_mem_cons.mpr ⟨first, all⟩))

theorem agrees_finishSpelled (fits : b.Fits r) (deeper : ev.fuel ≤ ev'.fuel)
    {expected allowShort matched : Value} (target : expected.Standard r)
    (permits : allowShort.Standard r) (standard : matched.Standard r) :
    Agrees b (ev.finishSpelled expected allowShort matched)
      (ev'.finishSpelled expected allowShort matched) (Value.Standard r) := by
  unfold finishSpelled
  refine (agrees_truth fits permits).bind fun short _ => ?_
  refine Agrees.ite (fun _ => Agrees.pure standard) fun _ => ?_
  have failure : (Value.parser Parser.zero).Standard r := Parser.standard_zero
  split
  · refine (agrees_equal fits deeper standard target).bind fun same _ => ?_
    exact Agrees.ite (fun _ => Agrees.pure target) fun _ => Agrees.pure failure
  · refine fits.look (fun bounded => Value.local_items (target.within bounded))
      (fun _ store _ items => Value.hereditary_standard.items store.all target items) ?_
    intro vs all
    have whole : (Value.list vs).Standard r := (Value.allStandard_iff _).mpr all
    refine (agrees_equal fits deeper standard whole).bind fun same _ => ?_
    exact Agrees.ite (fun _ => Agrees.pure standard) fun _ => Agrees.pure failure

/-- The steps of the library's combinators give standard values. -/
theorem agrees_applyStep (fits : b.Fits r) (agree : CallsAgree r b ev ev') {f : Callback}
    {v : Value} (step : f.Standard r) (standard : v.Standard r) :
    Agrees b (ev.applyStep f v) (ev'.applyStep f v) (Value.Standard r) := by
  cases f with
  | composed first second =>
    refine (agree.calls first [v] step.1 (by simp [standard])).bind fun w next => ?_
    exact agree.calls second [w] step.2 (by simp [next])
  | test condition =>
    refine (agree.calls condition [v] step (by simp [standard])).bind fun w next => ?_
    refine (agrees_truth fits next).bind fun holds _ => ?_
    exact Agrees.ite (fun _ => Agrees.pure standard) fun _ => Agrees.pure Parser.standard_zero
  | equals expected =>
    exact (agrees_equal fits agree.shallower standard step).bind fun _ _ => Agrees.pure trivial
  | oneOf members inside =>
    exact (agrees_isMember fits agree.shallower standard
      ((Value.allStandard_iff members).mp step)).bind fun _ _ => Agrees.pure trivial
  | constant value => exact Agrees.pure step
  | spellRest base expected allowShort =>
    obtain ⟨parser, target, short⟩ := step
    refine fits.lookTwice (fun bounded => Value.local_slice (target.within bounded) _ _ _)
      (fun _ store _ cut => Value.hereditary_standard.slice store.all target cut)
      (fun _ kept bounded => Parser.local_spell base (kept.within bounded) allowShort)
      (fun _ store _ kept _ spelled => Parser.standard_spell store parser kept short spelled)
      fun others spelled => ?_
    exact Agrees.pure (by simp [spelled, target, short, standard])
  | spellJoin expected allowShort head =>
    obtain ⟨target, short, first⟩ := step
    refine (agrees_joinSpelled fits first standard).bind fun matched joined => ?_
    exact agrees_finishSpelled fits agree.shallower target short joined
  | listRest following =>
    exact Agrees.pure (by simpa [Value.Standard, Callback.Standard] using ⟨step, standard⟩)
  | listJoin head =>
    refine Agrees.lift fun _ sum => Value.hereditary_standard.add ?_ standard sum
    exact (Value.allStandard_iff _).mpr (Value.hereditary_standard.toList step)
  | body body right =>
    exact Agrees.pure (by simpa [Value.Standard, Callback.Standard] using step)
  | close right =>
    refine (agrees_actual step).bind fun p next => Agrees.pure ?_
    simpa [Value.Standard, Callback.Standard] using ⟨next, standard⟩
  | operands operand operator rightmost =>
    refine (agrees_actual step.2).bind fun p next => Agrees.pure ?_
    simpa [Value.Standard, Callback.Standard] using ⟨⟨next, step.1⟩, standard⟩
  | fold rightmost first => exact agrees_foldOperands fits agree rightmost step standard
  | operand operand =>
    exact Agrees.pure (by simpa [Value.Standard, Callback.Standard] using ⟨step, standard⟩)
  | pair operator =>
    exact Agrees.pure (by simpa [Value.Standard] using ⟨step, standard⟩)
  | skipSpace =>
    exact Agrees.pure (by simpa [Value.Standard, Callback.Standard] using standard)
  | wordRest => exact Agrees.pure (by simpa [Value.Standard] using standard)
  | wordJoin head => exact agrees_add fits step standard
  | digits => exact Agrees.pure (by simpa [Value.Standard] using standard)
  | signed sign =>
    have minus : (Value.text ['-']).Standard r := trivial
    refine (agrees_equal fits agree.shallower step minus).bind fun negative _ => ?_
    refine fits.look (fun _ => Results.Local.runtime.map v.toInteger)
      (fun _ _ n read => Value.hereditary_standard.atom n (Value.isAtom_of_toInteger read))
      fun n whole => Agrees.ite (fun _ => ?_) fun _ => Agrees.pure whole
    exact Agrees.lift fun _ opposite =>
      Value.hereditary_standard.atom _ (Value.isAtom_of_negate opposite)
  | closure _ _ _ | primitive _ | adapted _ _ => exact Agrees.raise _

/-- Calls one level deeper agree if the calls within them do, and those of the written
functions. -/
theorem agrees_apply (fits : b.Fits r) (agree : CallsAgree r b ev ev')
    (written : ∀ parameters body scope, r.written (.closure parameters body scope) →
      ∀ arguments : List Value, (∀ v ∈ arguments, v.Standard r) →
        Agrees b (ev.apply (.function (.closure parameters body scope)) arguments)
          (ev'.apply (.function (.closure parameters body scope)) arguments) (Value.Standard r))
    {f : Value} {arguments : List Value} (function : f.Standard r)
    (all : ∀ v ∈ arguments, v.Standard r) :
    Agrees b (ev.apply f arguments) (ev'.apply f arguments) (Value.Standard r) := by
  cases f with
  | kind k =>
    exact fits.observeStop
      (fun bounded => Value.local_construct _ k fun v member => (all v member).within bounded)
      (fun _ => Value.sooner_construct agree.shallower k arguments)
      fun _ store _ made => Value.hereditary_standard.construct store.all all made
  | function f =>
    cases f with
    | closure parameters body scope => exact written parameters body scope function arguments all
    | primitive p =>
      simp only [apply, applyCallback]
      split
      · exact agrees_add fits (all _ (by simp)) (all _ (by simp))
      · exact fits.observeStop
          (fun bounded => Value.local_applyPrimitive _ _ fun v member =>
            (all v member).within bounded)
          (fun _ => Value.sooner_applyPrimitive agree.shallower _ _)
          fun _ store _ applied => Value.hereditary_standard.applyPrimitive store.all all applied
    | adapted callback count =>
      have given : (Value.tuple arguments).Standard r := (Value.allStandard_iff _).mpr all
      refine fits.look (fun bounded => Value.local_slice (given.within bounded) _ _ _)
        (fun _ store _ cut => Value.hereditary_standard.slice store.all given cut) ?_
      intro w kept
      split
      · exact agree.calls callback _ function.1 ((Value.allStandard_iff _).mp kept)
      · exact Agrees.raise _
    | _ =>
      simp only [apply, applyCallback]
      split
      · exact agrees_applyStep fits agree function (all _ List.mem_cons_self)
      · exact Agrees.raise _
  | _ => exact Agrees.raise _

end Evaluator

/-! ## What is standard is kept -/

/-- A standard store can be coupled with itself. -/
theorem Coupling.fits_self (r : Reach) : (Coupling.self (Store.Standard r)).Fits r where
  results := by
    rintro s _ ⟨rfl, standard⟩
    exact ⟨.inl rfl, standard.results⟩
  newResult lists _ all := agrees_self_iff.mpr (Store.maintains_newResult lists all)

theorem Store.maintains_readResults :
    Maintains (Store.Standard r) readResults (Results.Standard r) :=
  Maintains.get (Q := Store.Standard r) (fun _ start => start) |>.bind fun _ start =>
    Maintains.pure start.results

namespace Evaluator

variable {ev : Evaluator}

/-- Whether calls of standard functions with standard arguments stay within what is standard. -/
def CallsStandard (r : Reach) (ev : Evaluator) : Prop :=
  ∀ f (arguments : List Value), f.Standard r → (∀ v ∈ arguments, v.Standard r) →
    Maintains (Store.Standard r) (ev.call f arguments) (Value.Standard r)

theorem maintains_truth {v : Value} (standard : v.Standard r) :
    Maintains (Store.Standard r) (truth v) fun _ => True :=
  agrees_self_iff.mp (agrees_truth (Coupling.fits_self r) standard)

/-- Calls one level deeper are standard if the calls within them are, and those of the written
functions. -/
theorem maintains_apply (calls : CallsStandard r ev)
    (written : ∀ parameters body scope, r.written (.closure parameters body scope) →
      ∀ arguments : List Value, (∀ v ∈ arguments, v.Standard r) →
        Maintains (Store.Standard r)
          (ev.apply (.function (.closure parameters body scope)) arguments) (Value.Standard r))
    {f : Value} {arguments : List Value} (function : f.Standard r)
    (all : ∀ v ∈ arguments, v.Standard r) :
    Maintains (Store.Standard r) (ev.apply f arguments) (Value.Standard r) := by
  have agree : CallsAgree r (Coupling.self (Store.Standard r)) ev ev :=
    ⟨Nat.le_refl _, fun f arguments function all =>
      agrees_self_iff.mpr (calls f arguments function all)⟩
  refine agrees_self_iff.mp (agrees_apply (Coupling.fits_self r) agree ?_ function all)
  exact fun parameters body scope reached arguments all =>
    agrees_self_iff.mpr (written parameters body scope reached arguments all)

end Evaluator

end GrammarKit
