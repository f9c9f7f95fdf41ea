import GrammarKit.Proofs.Comparison.Process

/-! # Operations compare

The operations that terms can call: making parsers, result lists and cells, the methods of those,
and operators on values of many kinds. Whether result lists may be appended to, and how parsers may
be named, is up to the comparison.
-/

namespace GrammarKit

/-- Whether a comparison allows an operation on arguments. -/
def Comparison.Admits (c : Comparison) : Operation → List Value → Prop
  | .method .push, [.result _, _, _] | .method .extend, [.result _, .result _] => c.mayAppend
  | .method .named, [.parser _, name] => name ≠ .none → c.mayName name
  | _, _ => True

/-- Whether an operation appends to a result list. -/
def Operation.appends : Operation → List Value → Bool
  | .method .push, [.result _, _, _] | .method .extend, [.result _, .result _] => true
  | _, _ => false

/-- Whether an operation gives a parser a name that is no text. -/
def Operation.misnames : Operation → List Value → Bool
  | .method .named, [.parser _, .none] | .method .named, [.parser _, .text _] => false
  | .method .named, [.parser _, _] => true
  | _, _ => false

/-- Where texts are allowed as names, nothing but other names and appending may be forbidden. -/
theorem Comparison.admits_of {c : Comparison} {operation : Operation} {arguments : List Value}
    (text : ∀ cs, c.mayName (.text cs)) (append : operation.appends arguments = true → c.mayAppend)
    (named : operation.misnames arguments = false) : c.Admits operation arguments := by
  unfold Admits
  split
  · exact append rfl
  · exact append rfl
  · next name =>
    intro given
    cases name with
    | none => exact absurd rfl given
    | text cs => exact text cs
    | _ => cases named
  · trivial

/-- Where all names are allowed, nothing but appending may be forbidden. -/
theorem Comparison.admits_of_name {c : Comparison} {operation : Operation}
    {arguments : List Value} (name : ∀ v, c.mayName v)
    (append : operation.appends arguments = true → c.mayAppend) :
    c.Admits operation arguments := by
  unfold Admits
  split
  · exact append rfl
  · exact append rfl
  · exact fun _ => name _
  · trivial

namespace Comparison.Lawful

open Value (hereditary_within)

variable {c : Comparison} (lawful : c.Lawful) {w : c.World} {ev : Evaluator}
  {E : Nat → Evaluator} {α : Type}

include lawful

/-! ## Making things -/

theorem receiver {v : Value} (within : c.value w v) :
    c.steady w (Evaluator.receiver v) (fun _ => Evaluator.receiver v) (c.parser w) := by
  cases v with
  | parser p => exact lawful.pure ⟨rfl, within⟩
  | _ => exact lawful.raise _

theorem makeCell {factory : Value} (within : c.value w factory) :
    c.steady w (Evaluator.makeCell factory) (fun _ => Evaluator.makeCell factory) fun _ => True :=
  lawful.newCell (Parser.optionWithin_toOption within)

theorem makeOperations (pairs : List Value) : ∀ {table : Parser}, c.parser w table →
    c.values w pairs →
      c.steady w (Evaluator.makeOperations table pairs)
        (fun _ => Evaluator.makeOperations table pairs) (c.parser w) := by
  induction pairs with
  | nil => exact fun start _ => lawful.pure ⟨rfl, start⟩
  | cons pair pairs ih =>
    intro table start all
    obtain ⟨here, others⟩ := List.forall_mem_cons.mp all
    refine lawful.unpair here fun matcher v first second => ?_
    refine lawful.after (lawful.receiver first) fun p parser => ih ?_ others
    exact Parser.within_orElse.mpr ⟨start, List.forall_mem_singleton.mpr
      (Parser.within_step.mpr ⟨parser, second⟩)⟩

theorem makeOneOf {members : Value} (within : c.value w members) (inside : Bool) :
    c.steady w (Evaluator.makeOneOf members inside)
      (fun _ => Evaluator.makeOneOf members inside) (c.parser w) := by
  refine lawful.items within fun vs all => ?_
  exact ite (fun _ => lawful.pure ⟨rfl, Parser.within_oneOf.mpr all⟩) fun _ => lawful.raise _

theorem makeResult {pairs : Value} (within : c.value w pairs) :
    c.holds w (Evaluator.makeResult pairs) (fun _ => Evaluator.makeResult pairs) c.value := by
  exact lawful.lookTwice (P := c.values w) (R := c.derivations w) (Value.local_items within)
    (fun _ store _ items => hereditary_within.items store within items)
    (fun _ all => Value.local_toDerivations all)
    (fun _ store _ all => hereditary_within.toDerivations store all)
    fun ds derivations => lawful.newResult derivations

theorem makeLiteral (deep : Deep fun m => ev.fuel ≤ (E m).fuel) {expected : Value}
    (within : c.value w expected) :
    c.steady w (ev.makeLiteral expected) (fun m => (E m).makeLiteral expected) (c.parser w) := by
  have whole : c.value w (.bool false) := trivial
  refine lawful.look (Parser.local_startsWith _ within _) (fun _ store _ spelled =>
    Parser.within_startsWith store Parser.within_item within whole spelled) fun p parser => ?_
  exact lawful.after (lawful.display deep within) fun shown _ =>
    lawful.pure ⟨rfl, Parser.Within.titled parser _⟩

theorem make (deep : Deep fun m => ev.fuel ≤ (E m).fuel) {m : Maker} {arguments : List Value}
    (all : c.values w arguments) :
    c.holds w (ev.make m arguments) (fun n => (E n).make m arguments) c.value := by
  have nothing : c.value w .none := trivial
  unfold Evaluator.make
  split
  case h_5 | h_7 | h_10 =>
    exact lawful.after (lawful.makeCell nothing) fun _ _ =>
      lawful.pure (by simp [Comparison.value])
  case h_6 factory | h_8 factory =>
    exact lawful.after (lawful.makeCell (all factory List.mem_cons_self)) fun _ _ =>
      lawful.pure (by simp [Comparison.value])
  case h_12 =>
    exact lawful.after (lawful.makeOperations arguments Parser.within_zero all) fun _ parser =>
      lawful.pure parser
  case h_18 v =>
    refine lawful.pure ((hereditary_within.list _).mpr ?_)
    exact hereditary_within.toList (all v List.mem_cons_self)
  case h_19 callback limit =>
    refine lawful.holds_of_steady (P := c.value w) (fun _ adapted => adapted) (lawful.lift ?_)
    exact fun _ => Value.within_adapt (all callback (by simp)) (all limit (by simp))
  case h_26 => exact lawful.newResult derivations_nil
  case h_27 pairs => exact lawful.makeResult (all pairs List.mem_cons_self)
  case h_29 v =>
    exact lawful.after (lawful.display deep (all v List.mem_cons_self)) fun shown _ =>
      lawful.pure (Parser.within_char (all v List.mem_cons_self) shown)
  case h_30 members | h_31 members =>
    exact lawful.after (lawful.makeOneOf (all members List.mem_cons_self) _) fun _ parser =>
      lawful.pure parser
  case h_32 expected =>
    exact lawful.after (lawful.makeLiteral deep (all expected List.mem_cons_self)) fun _ parser =>
      lawful.pure parser
  case h_33 p =>
    exact lawful.after (lawful.receiver (all p List.mem_cons_self)) fun _ parser =>
      lawful.pure (Parser.within_token.mpr parser)
  case h_47 a => exact lawful.pure ((hereditary_within.list _).mpr (Parser.within_values a))
  -- What is left is made of the arguments alone, if there are as many as there should be.
  all_goals first
    | exact lawful.raise _
    | (refine lawful.pure ?_; simp [Comparison.value]; done)
    | (refine lawful.pure ?_; simpa [Comparison.value, Comparison.values] using all)

/-! ## Methods -/

theorem copyOf {p : Parser} (within : c.parser w p) :
    c.steady w (Evaluator.copyOf p) (fun _ => Evaluator.copyOf p) (c.parser w) := by
  unfold Evaluator.copyOf
  split
  · exact lawful.pure ⟨rfl, Parser.Within.copy within⟩
  · exact lawful.raise _

theorem mapResult (tracks : c.Tracks ev E) {mapping : Value} {address : Nat} (fuel : Nat) :
    ∀ {w : c.World} {F : Nat → Nat} {i : Nat}, (Deep fun m => fuel ≤ F m) →
      c.value w (.result address) → c.value w mapping →
        c.holds w (ev.mapResult mapping address fuel i)
          (fun m => (E m).mapResult mapping address (F m) i) c.derivations := by
  induction fuel with
  | zero => exact fun _ _ _ => lawful.outOfFuel
  | succ fuel ih =>
    intro w F i deep known function
    refine lawful.congr (y := fun m => (E m).mapResult mapping address (F m - 1 + 1) i)
      (deep.mono fun m le => by rw [Nat.sub_add_cancel (Nat.le_of_add_left_le le)]) ?_
    have deep' : Deep fun m => fuel ≤ F m - 1 := deep.mono fun m le => Nat.le_sub_of_add_le le
    refine lawful.reading (fun results store => ?_) fun m => ?_
    · cases found : (results.read address)[i]? with
      | none => exact lawful.pure derivations_nil
      | some d =>
        have here := store address known d (List.mem_of_getElem? found)
        refine lawful.bind (tracks.call w mapping [d.value] function
          (List.forall_mem_singleton.mpr here.1)) fun w' v later value => ?_
        have le := lawful.wider later
        refine lawful.bind (ih deep' (known.mono le) (function.mono le)) ?_
        intro w'' ds later' all
        have le' := lawful.wider later'
        have head : (⟨v, d.remainder⟩ : Derivation).Within (c.bounds w'') :=
          ⟨value.mono le', (here.2.mono le).mono le'⟩
        exact lawful.pure (List.forall_mem_cons.mpr ⟨head, all⟩)
    · intro results results' _ same
      simp only [same.read address known]

theorem parserMethod (tracks : c.Tracks ev E) {p : Parser} {m : Method} {arguments : List Value}
    (parser : c.parser w p) (all : c.values w arguments)
    (named : ∀ name, m = .named → arguments = [name] → name ≠ .none → c.mayName name) :
    c.holds w (ev.parserMethod p m arguments) (fun n => (E n).parserMethod p m arguments)
      c.value := by
  have within : p.Within (c.bounds w) := parser
  have whole : c.value w (.bool false) := trivial
  unfold Evaluator.parserMethod
  split
  case h_16 empty _ =>
    have nothing := all empty List.mem_cons_self
    exact lawful.pure (by simp [Comparison.value, within, nothing])
  case h_17 expected =>
    have target := all expected List.mem_cons_self
    exact lawful.look (Parser.local_startsWith p target _) (fun _ store _ spelled =>
      Parser.within_startsWith store parser target whole spelled) fun q found => lawful.pure found
  case h_18 expected short =>
    have target := all expected (by simp)
    exact lawful.look (Parser.local_startsWith p target short) (fun _ store _ spelled =>
      Parser.within_startsWith store parser target (all short (by simp)) spelled)
      fun q found => lawful.pure found
  case h_19 separator =>
    refine lawful.after (lawful.receiver (all separator List.mem_cons_self)) fun q other => ?_
    have within' : q.Within (c.bounds w) := other
    exact lawful.pure (by simp [Comparison.value, within, within'])
  case h_20 separator empty =>
    refine lawful.after (lawful.receiver (all separator List.mem_cons_self)) fun q other => ?_
    have within' : q.Within (c.bounds w) := other
    have nothing := all empty (by simp)
    exact lawful.pure (by simp [Comparison.value, within, within', nothing])
  case h_21 delimiter | h_22 delimiter | h_30 delimiter _ =>
    refine lawful.after (lawful.receiver (all delimiter List.mem_cons_self)) fun q other => ?_
    have within' : q.Within (c.bounds w) := other
    exact lawful.pure (by simp [Comparison.value, within, within'])
  case h_23 left right _ =>
    refine lawful.after (lawful.receiver (all left List.mem_cons_self)) fun q other => ?_
    have within' : q.Within (c.bounds w) := other
    have closing := all right (by simp)
    exact lawful.pure (by simp [Comparison.value, within, within', closing])
  case h_31 f =>
    exact lawful.after (lawful.copyOf parser) fun _ _ =>
      lawful.pure (Parser.Within.map parser (all f List.mem_cons_self))
  case h_32 name =>
    refine lawful.after (lawful.copyOf parser) fun _ _ => lawful.pure ?_
    exact Parser.Within.named parser (fun given => lawful.name w name (named name rfl rfl given))
      (all name List.mem_cons_self)
  case h_33 => exact lawful.after (lawful.copyOf parser) fun _ copied => lawful.pure copied
  case h_34 input =>
    refine lawful.bind (tracks.parse w p input parser (all input List.mem_cons_self)) ?_
    exact fun w' ds _ found => lawful.newResult found
  case h_35 input =>
    refine lawful.bind (lawful.process tracks parser (all input List.mem_cons_self)) ?_
    exact fun w' ds _ found => lawful.newResult found
  all_goals first
    | exact lawful.raise _
    | (refine lawful.pure ?_; simp [Comparison.value, within]; done)
    | (refine lawful.pure ?_; simpa [Comparison.value, Comparison.values, within] using all)

/-- A definition, a continuation and what repetitions amount to, as far as a variant has them. -/
theorem variantMethod (tracks : c.Tracks ev E) {p : Parser} {m : Method}
    {arguments : List Value} (parser : c.parser w p) (all : c.values w arguments) :
    c.holds w (ev.variantMethod p m arguments) (fun n => (E n).variantMethod p m arguments)
      c.value := by
  have defined {v : Value} {address : Nat} (within : c.value w v) :
      c.holds w (do Evaluator.define address v; return .parser p)
        (fun _ => do Evaluator.define address v; return .parser p) c.value :=
    lawful.after (lawful.define within) fun _ _ => lawful.pure parser
  have basic : p.shape.Within (c.bounds w) := by
    obtain ⟨shape, mapping, name⟩ := p
    exact parser.1
  unfold Evaluator.variantMethod
  split
  case h_1 q next always shape =>
    rw [shape] at basic
    split
    · exact lawful.bind (lawful.continuation tracks basic.2.1 (all _ (by simp)) (all _ (by simp)))
        fun _ _ _ made => lawful.pure made
    · exact lawful.raise _
  case h_2 q accumulate shape =>
    split
    · next link =>
      have within := all link List.mem_cons_self
      refine lawful.lookStop (f := fun k results => Evaluator.chainValues results k link)
        (fun n => Evaluator.local_chainValues n within)
        (fun _ _ le => Value.sooner_chainValues le link) tracks.fuel (fun _ store _ chained =>
          hereditary_within.chainValues store _ within chained) fun vs values => ?_
      refine lawful.holds_of_steady (P := c.value w) (fun _ gathered => gathered) ?_
      exact lawful.lift fun _ gathered => hereditary_within.accumulateValues
        (fun v member => values v (List.mem_reverse.mp member)) gathered
    · exact lawful.raise _
  case h_3 address _ =>
    split
    · exact defined (all _ List.mem_cons_self)
    · exact lawful.raise _
  case h_4 cell _ =>
    split
    · split
      · exact defined (all _ List.mem_cons_self)
      · exact lawful.raise _
    · exact lawful.raise _
  case h_5 address _ =>
    split
    · exact lawful.bind (lawful.resolve tracks parser) fun _ _ _ made => lawful.pure made
    · exact lawful.raise _
  case h_6 => split <;> exact lawful.raise _
  case h_7 => exact lawful.raise _

theorem cellMethod (tracks : c.Tracks ev E) {address : Nat} {m : Method} {arguments : List Value}
    (all : c.values w arguments) :
    c.holds w (ev.cellMethod address m arguments) (fun n => (E n).cellMethod address m arguments)
      c.value := by
  unfold Evaluator.cellMethod
  split
  · exact lawful.after (lawful.define (all _ List.mem_cons_self)) fun _ _ => lawful.pure trivial
  · exact lawful.bind (lawful.resolve tracks (all _ List.mem_cons_self)) fun _ _ _ made =>
      lawful.pure made
  all_goals exact lawful.raise _

/-- Derivations are appended to a result list after it has been read. -/
theorem appended {address : Nat} {f : Results → List Derivation} (may : c.mayAppend)
    (known : c.value w (.result address)) (looks : Results.Local (c.bounds w) f)
    (all : ∀ results, results.All (c.value w) → c.derivations w (f results)) :
    let append : Eval Value := do
      let results ← Store.readResults
      Store.setResult address (results.read address ++ f results)
      return .result address
    c.holds w append (fun _ => append) c.value := by
  have sequence := lawful.after (lawful.append may known looks all)
    (f := fun _ => Pure.pure (Value.result address))
    (g := fun _ _ => Pure.pure (Value.result address)) (Q := c.value) fun _ _ => lawful.pure known
  simpa only [bind_assoc] using sequence

theorem resultMethod (tracks : c.Tracks ev E) {address : Nat} {m : Method}
    {arguments : List Value} (known : c.value w (.result address)) (all : c.values w arguments)
    (admits : c.Admits (.method m) (.result address :: arguments)) :
    c.holds w (ev.resultMethod address m arguments)
      (fun n => (E n).resultMethod address m arguments) c.value := by
  -- What appends is compared as a whole, with the list that it reads first.
  by_cases push : m = .push ∧ ∃ v r, arguments = [v, r]
  · obtain ⟨rfl, v, r, rfl⟩ := push
    exact lawful.appended (f := fun _ => [⟨v, r⟩]) admits known (.const _) fun _ _ =>
      List.forall_mem_singleton.mpr ⟨all v (by simp), all r (by simp)⟩
  by_cases extend : m = .extend ∧ ∃ other, arguments = [.result other]
  · obtain ⟨rfl, other, rfl⟩ := extend
    have known' : c.value w (.result other) := all _ List.mem_cons_self
    exact lawful.appended (f := fun results => results.read other) admits known (.read known')
      fun results store => store other known'
  refine lawful.reading (fun results store => ?_) fun _ results results' _ same => by
    simp only [same.read address known]
  have here := store address known
  split
  · exact absurd ⟨rfl, _, _, rfl⟩ push
  · exact absurd ⟨rfl, _, rfl⟩ extend
  · next other =>
    have known' : c.value w (.result other) := all _ List.mem_cons_self
    refine lawful.reading (fun results' store' => lawful.newResult ?_) fun _ =>
      (Results.Local.read known').map fun ds => Store.newResult (results.read address ++ ds)
    exact List.forall_mem_append.mpr ⟨here, store' other known'⟩
  · exact lawful.raise _
  · exact lawful.raise _
  · exact lawful.bind (lawful.mapResult tracks _ tracks.fuel known (all _ List.mem_cons_self))
      fun _ _ _ found => lawful.newResult found
  · refine lawful.pure ?_
    cases found : results.read address with
    | nil => trivial
    | cons d ds => exact here d (found ▸ List.mem_cons_self)
  · refine lawful.look (P := c.derivations w) (Evaluator.local_completeOnes here)
      (fun _ _ ds complete d member => ?_) fun ds complete => lawful.newResult complete
    exact here d (Value.Hereditary.completeOnes _ ds complete d member)
  · refine lawful.pure ((hereditary_within.list _).mpr (List.forall_mem_map.mpr ?_))
    exact fun d member => (here d member).1
  · refine lawful.pure ((hereditary_within.list _).mpr (List.forall_mem_map.mpr ?_))
    exact fun d member => (here d member).2
  all_goals exact lawful.raise _

theorem foreignMethod {v : Value} {m : Method} {arguments : List Value} (within : c.value w v) :
    c.holds w (Evaluator.foreignMethod v m arguments)
      (fun _ => Evaluator.foreignMethod v m arguments) c.value := by
  unfold Evaluator.foreignMethod
  split
  · split
    · exact lawful.raise _
    · exact ite (fun _ => lawful.pure within) fun _ => lawful.raise _
  · exact lawful.raise _

theorem applyMethod (tracks : c.Tracks ev E) {m : Method} {arguments : List Value}
    (all : c.values w arguments) (admits : c.Admits (.method m) arguments) :
    c.holds w (ev.applyMethod m arguments) (fun n => (E n).applyMethod m arguments) c.value := by
  unfold Evaluator.applyMethod
  split
  · next p rest =>
    obtain ⟨parser, others⟩ := List.forall_mem_cons.mp all
    refine ite (fun _ => lawful.raise _) fun _ => ite (fun _ => ?_) fun _ => ?_
    · exact lawful.variantMethod tracks parser others
    · refine lawful.parserMethod tracks parser others ?_
      rintro name rfl rfl given
      exact admits given
  · exact lawful.cellMethod tracks (List.forall_mem_cons.mp all).2
  · obtain ⟨known, others⟩ := List.forall_mem_cons.mp all
    exact lawful.resultMethod tracks known others admits
  · exact lawful.foreignMethod (List.forall_mem_cons.mp all).1
  · exact lawful.raise _

/-! ## Operators -/

theorem readAttribute {a : Attribute} {v : Value} (within : c.value w v) :
    c.steady w (Evaluator.readAttribute a v) (fun _ => Evaluator.readAttribute a v)
      (c.value w) := by
  unfold Evaluator.readAttribute
  split
  · exact lawful.pure ⟨rfl, within.1⟩
  · exact lawful.pure ⟨rfl, within.2⟩
  · exact lawful.pure ⟨rfl, trivial⟩
  · exact lawful.pure ⟨rfl, trivial⟩
  · next address =>
    refine lawful.after lawful.readCell fun cell defined => lawful.pure ⟨rfl, ?_⟩
    cases found : cell.definition with
    | none => trivial
    | some p => exact defined p found
  · next p =>
    obtain ⟨shape, mapping, name⟩ := p
    refine lawful.pure ⟨rfl, ?_⟩
    cases name with
    | none => trivial
    | some v => exact within.2.2.2
  · next p =>
    obtain ⟨shape, mapping, name⟩ := p
    refine lawful.pure ⟨rfl, ?_⟩
    cases mapping with
    | none => trivial
    | some v => exact within.2.1
  · next p _ _ =>
    obtain ⟨shape, mapping, name⟩ := p
    have basic : shape.Within (c.bounds w) := within.1
    simp only [Parser.shape]
    split
    · exact lawful.pure ⟨rfl, basic⟩
    · exact lawful.pure ⟨rfl, Parser.Within.toValue basic⟩
    · exact lawful.pure ⟨rfl, Parser.Within.toValue basic.1⟩
    · exact lawful.pure ⟨rfl, basic.2.1⟩
    · exact lawful.pure ⟨rfl, basic.2.2⟩
    · have each := (Parser.allWithin_iff _).mp basic
      refine lawful.pure ⟨rfl, (hereditary_within.tuple _).mpr (List.forall_mem_map.mpr ?_)⟩
      exact fun p member => Parser.Within.toValue (each p member)
    · exact lawful.pure ⟨rfl, Parser.Within.toValue basic.1⟩
    · exact lawful.pure ⟨rfl, basic.2⟩
    · exact lawful.pure ⟨rfl, trivial⟩
    · exact lawful.pure ⟨rfl, basic⟩
    · exact lawful.raise _
  · exact lawful.raise _

/-- A value that is made from a result that is not looked at further. -/
theorem made {x : Eval α} {y : Nat → Eval α} {P : α → Prop} {f : α → Value}
    (steady : c.steady w x y P) (atom : ∀ a, (f a).IsAtom) :
    c.holds w (x >>= fun a => Pure.pure (f a)) (fun m => y m >>= fun a => Pure.pure (f a))
      c.value :=
  lawful.after steady fun a _ => lawful.pure (hereditary_within.atom _ (atom a))

theorem slice {v first last step : Value} (within : c.value w v) :
    let cut : Eval Value := do v.slice (← Store.readResults) first last step
    c.holds w cut (fun _ => cut) c.value :=
  lawful.holds_of_steady (P := c.value w) (fun _ cut => cut)
    (lawful.observe (Value.local_slice within _ _ _) fun _ store _ cut =>
      hereditary_within.slice store within cut)

theorem applyOperator (tracks : c.Tracks ev E) {o : Operator} {arguments : List Value}
    (all : c.values w arguments) :
    c.holds w (ev.applyOperator o arguments) (fun n => (E n).applyOperator o arguments)
      c.value := by
  -- A result that holds no other values.
  have atomic {x : Except Error Value} (atom : ∀ v, x = .ok v → v.IsAtom) :
      c.holds w (liftM x : Eval Value) (fun _ => liftM x) c.value :=
    lawful.holds_of_steady (P := c.value w) (fun _ value => value)
      (lawful.lift fun v here => hereditary_within.atom v (atom v here))
  unfold Evaluator.applyOperator
  split
  case h_1 a b | h_2 a b =>
    exact lawful.made (lawful.equal tracks.fuel (all a (by simp)) (all b (by simp)))
      fun _ => trivial
  case h_3 a b =>
    exact lawful.lookStop (P := fun _ => True) (f := fun k results => Value.less results k a b)
      (fun n => Value.local_less n (all a (by simp)) (all b (by simp)))
      (fun _ _ le => Value.sooner_less le a b) tracks.fuel (fun _ _ _ _ => trivial)
      fun _ _ => lawful.pure trivial
  case h_4 => exact lawful.add (all _ (by simp)) (all _ (by simp))
  case h_5 => exact atomic fun _ => Value.isAtom_of_onNumbers
  case h_6 a b =>
    refine lawful.holds_of_steady (P := c.value w) (fun _ product => product) (lawful.lift ?_)
    exact fun _ => hereditary_within.multiply (all a (by simp)) (all b (by simp))
  case h_7 => exact atomic fun _ => Value.isAtom_of_negate
  case h_8 v | h_9 v =>
    exact lawful.made (lawful.truth (all v List.mem_cons_self)) fun _ => trivial
  case h_10 v =>
    exact lawful.look (P := fun _ => True) (Value.local_length (all v List.mem_cons_self))
      (fun _ _ _ _ => trivial) fun _ _ => lawful.pure trivial
  case h_11 v container =>
    exact lawful.lookStop (P := fun _ => True)
      (f := fun k results => Value.contains results k v container)
      (fun n => Value.local_contains n (all v (by simp)) (all container (by simp)))
      (fun _ _ le => Value.sooner_contains le v container) tracks.fuel (fun _ _ _ _ => trivial)
      fun _ _ => lawful.pure trivial
  case h_12 => exact ite (fun _ => lawful.pure trivial) fun _ => lawful.raise _
  case h_13 v =>
    exact lawful.made (lawful.display tracks.fuel (all v List.mem_cons_self)) fun _ => trivial
  case h_14 | h_15 => exact lawful.pure trivial
  case h_17 => exact lawful.pure ((hereditary_within.list _).mpr all)
  case h_18 => exact lawful.pure ((hereditary_within.tuple _).mpr all)
  case h_19 f vs =>
    obtain ⟨function, others⟩ := List.forall_mem_cons.mp all
    exact tracks.call w f vs function others
  case h_20 v =>
    exact lawful.lookStop (P := fun _ => True) (f := fun k results => Value.toText results k v)
      (fun n => Value.local_toText n (all v List.mem_cons_self))
      (fun _ _ le => Value.sooner_toText le v) tracks.fuel (fun _ _ _ _ => trivial)
      fun _ _ => lawful.raise _
  case h_21 v key =>
    have within := all v List.mem_cons_self
    refine lawful.holds_of_steady (P := c.value w) (fun _ item => item) ?_
    exact lawful.observe (Value.local_index within key) fun _ store _ =>
      hereditary_within.index store within
  case h_22 | h_23 | h_24 | h_25 => exact lawful.slice (all _ List.mem_cons_self)
  case h_26 v =>
    exact lawful.items (all v List.mem_cons_self) fun vs items =>
      lawful.pure ((hereditary_within.list _).mpr items)
  case h_27 v =>
    exact lawful.holds_of_steady (P := c.value w) (fun _ value => value)
      (lawful.readAttribute (all v List.mem_cons_self))
  all_goals exact lawful.raise _

theorem applyOperation (tracks : c.Tracks ev E) {operation : Operation} {arguments : List Value}
    (all : c.values w arguments) (admits : c.Admits operation arguments) :
    c.holds w (ev.applyOperation operation arguments)
      (fun n => (E n).applyOperation operation arguments) c.value := by
  cases operation with
  | make m => exact lawful.make tracks.fuel all
  | method m => exact lawful.applyMethod tracks all admits
  | operator o => exact lawful.applyOperator tracks all

end Comparison.Lawful

end GrammarKit
