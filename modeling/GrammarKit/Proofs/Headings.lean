import GrammarKit.Evaluation.Interpreter
import GrammarKit.Proofs.Sequence
import GrammarKit.Proofs.Eval

/-! # Headings and adapted callbacks

How the parameters of a function are filled when the function has been adapted to a number of
arguments. Parameters come in the order in which they are written: those that are filled by position
and are required, those that are filled by position and have a default, at most one that takes what
is left, those that are filled by name, and at most one that takes further named arguments.

`adapted_callback_is_bound` says for every heading and every list of arguments which arguments are
passed on, when they can be bound, and which variable then holds what.
-/

namespace GrammarKit

namespace Parameter

/-- Whether a parameter is filled by position. -/
def isByPosition {α : Type} (p : Parameter α) : Bool :=
  p.kind == .standard || p.kind == .positional

theorem isRequired_iff {α : Type} {p : Parameter α} :
    p.isRequired = true ↔ p.isByPosition = true ∧ p.default = none := by
  obtain ⟨name, kind, default⟩ := p
  cases kind <;> cases default <;> simp [isRequired, isByPosition]

/-- Each parameter with the argument at its place, and those after the last argument with their
defaults. -/
def fill : List (Parameter Value) → List Value → Scope
  | [], _ => []
  | p :: ps, [] => (p.name, p.default.getD .none) :: fill ps []
  | p :: ps, a :: arguments => (p.name, a) :: fill ps arguments

/-- Whether a parameter takes one argument, should there be any. -/
def TakesOne (arguments : List Value) (p : Parameter Value) : Prop :=
  p.isByPosition = true ∨ p.kind = .named ∧ arguments = []

theorem TakesOne.isByPosition {a : Value} {arguments : List Value} {p : Parameter Value}
    (takes : p.TakesOne (a :: arguments)) : p.isByPosition = true := by
  rcases takes with byPosition | ⟨-, none⟩
  · exact byPosition
  · cases none

/-- Arguments beyond the parameters have no place. -/
theorem fill_take (ps : List (Parameter Value)) (arguments : List Value) :
    fill ps (arguments.take ps.length) = fill ps arguments := by
  induction ps generalizing arguments with
  | nil => rfl
  | cons p ps ih =>
    cases arguments with
    | nil => rfl
    | cons a arguments =>
      rw [List.length_cons, List.take_succ_cons, fill, fill, ih]

end Parameter

open Parameter

variable {p : Parameter Value} {ps qs : List (Parameter Value)} {arguments : List Value}

/-! ## Binding -/

theorem bindParameters_cons_nil (takes : p.TakesOne []) :
    bindParameters (p :: ps) [] = match p.default with
      | some d => do return (p.name, d) :: (← bindParameters ps [])
      | none => .error .wrongKind := by
  obtain ⟨name, kind, default⟩ := p
  cases kind with
  | standard | positional | named => cases default <;> rfl
  | rest | namedRest => simp [TakesOne, isByPosition] at takes

theorem bindParameters_cons_cons (a : Value) (byPosition : p.isByPosition = true) :
    bindParameters (p :: ps) (a :: arguments) =
      (do return (p.name, a) :: (← bindParameters ps arguments)) := by
  obtain ⟨name, kind, default⟩ := p
  cases kind with
  | standard | positional => rfl
  | named | rest | namedRest => cases byPosition

/-- Parameters that take one argument each are bound before the ones after them. -/
theorem bindParameters_append (qs : List (Parameter Value))
    (takes : ∀ p ∈ ps, p.TakesOne arguments) :
    bindParameters (ps ++ qs) arguments = (do
      let front ← bindParameters ps (arguments.take ps.length)
      let back ← bindParameters qs (arguments.drop ps.length)
      return front ++ back) := by
  induction ps generalizing arguments with
  | nil =>
    rw [List.nil_append, List.length_nil, List.take_zero, List.drop_zero]
    exact (bind_pure _).symm
  | cons p ps ih =>
    obtain ⟨first, others⟩ := List.forall_mem_cons.mp takes
    cases arguments with
    | nil =>
      have rest := ih others
      rw [List.take_nil, List.drop_nil] at rest
      rw [List.cons_append, List.take_nil, List.drop_nil, bindParameters_cons_nil first,
        bindParameters_cons_nil first, rest]
      cases p.default with
      | none => rfl
      | some d => simp only [bind_assoc, pure_bind, List.cons_append]
    | cons a arguments =>
      have further : ∀ q ∈ ps, q.TakesOne arguments := fun q member =>
        .inl (others q member).isByPosition
      have rest := ih further
      have byPosition := first.isByPosition
      rw [List.cons_append, List.length_cons, List.take_succ_cons, List.drop_succ_cons,
        bindParameters_cons_cons a byPosition, bindParameters_cons_cons a byPosition, rest]
      simp only [bind_assoc, pure_bind, List.cons_append]

/-- As many arguments as there are parameters, or fewer, are enough if every parameter that is left
has a default. -/
theorem bindParameters_eq_fill (takes : ∀ p ∈ ps, p.TakesOne arguments)
    (fits : arguments.length ≤ ps.length) :
    bindParameters ps arguments =
      if (ps.drop arguments.length).all (·.default.isSome) then .ok (fill ps arguments)
      else .error .wrongKind := by
  induction ps generalizing arguments with
  | nil =>
    obtain rfl := List.eq_nil_of_length_eq_zero (Nat.le_zero.mp fits)
    rfl
  | cons p ps ih =>
    obtain ⟨first, others⟩ := List.forall_mem_cons.mp takes
    cases arguments with
    | nil =>
      rw [bindParameters_cons_nil first, ih others (Nat.zero_le _)]
      cases held : p.default with
      | none => simp [held]
      | some d =>
        simp only [List.length_nil, List.drop_zero, List.all_cons, held, Option.isSome_some,
          Bool.true_and, fill, Option.getD_some]
        split <;> rfl
    | cons a arguments =>
      rw [bindParameters_cons_cons a first.isByPosition,
        ih (fun q member => .inl (others q member).isByPosition) (Nat.le_of_succ_le_succ fits)]
      simp only [List.length_cons, List.drop_succ_cons, fill]
      split <;> rfl

/-! ## Headings -/

/-- The parameters of a function, in the order in which they are written. -/
structure Heading where
  required : List (Parameter Value)
  optional : List (Parameter Value)
  /-- The name of the parameter that takes every argument that is left. -/
  rest : Option String
  named : List (Parameter Value)
  /-- The name of the parameter that takes further named arguments. -/
  namedRest : Option String
  isRequired : ∀ p ∈ required, p.isRequired = true
  isOptional : ∀ p ∈ optional, p.isByPosition = true ∧ p.default.isSome = true
  isNamed : ∀ p ∈ named, p.kind = .named

namespace Heading

/-- The parameters that are filled by position. -/
def positional (h : Heading) : List (Parameter Value) := h.required ++ h.optional

/-- The parameters that are filled by name. -/
def keywords (h : Heading) : List (Parameter Value) :=
  h.named ++ (h.namedRest.map fun name => ⟨name, .namedRest, none⟩).toList

/-- All parameters. -/
def parameters (h : Heading) : List (Parameter Value) :=
  h.positional ++ ((h.rest.map fun name => ⟨name, .rest, none⟩).toList ++ h.keywords)

/-- Whether a function can be called with the arguments that it is passed of `count`: these are
enough for the parameters that are required, and no parameter that is filled by name is. -/
def Accepts (h : Heading) (count : Nat) : Prop :=
  h.required.length ≤ count ∧ ∀ p ∈ h.named, p.default.isSome = true

instance (h : Heading) (count : Nat) : Decidable (h.Accepts count) :=
  inferInstanceAs (Decidable (_ ∧ _))

/-- How many of `count` arguments a function is passed. -/
def passed (h : Heading) (count : Nat) : Nat :=
  if h.rest.isSome then count else min h.required.length count

/-- What the variables hold that are named in a heading. Without a parameter that takes what is
left, the leading arguments go to the parameters that are required, and the others keep their
defaults; with such a parameter, every argument goes to the parameter at its place or to what is
left. What is filled by name keeps its default. -/
def locals (h : Heading) (arguments : List Value) : Scope :=
  (match h.rest with
    | none => fill h.positional (arguments.take h.required.length)
    | some name => fill h.positional arguments ++
        [(name, .tuple (arguments.drop h.positional.length))]) ++
  (fill h.named [] ++ (h.namedRest.map fun name => (name, .tuple [])).toList)

variable (h : Heading)

theorem positional_isByPosition : ∀ p ∈ h.positional, p.isByPosition = true := by
  intro p member
  rcases List.mem_append.mp member with required | optional
  · exact (isRequired_iff.mp (h.isRequired p required)).1
  · exact (h.isOptional p optional).1

/-- So many arguments are enough for the parameters that are filled by position. -/
theorem all_isSome_drop_positional (count : Nat) :
    (h.positional.drop count).all (·.default.isSome) = decide (h.required.length ≤ count) := by
  rcases Nat.lt_or_ge count h.required.length with missing | enough
  · rw [decide_eq_false (Nat.not_le_of_lt missing), positional,
      List.drop_append_of_le_length (Nat.le_of_lt missing), List.drop_eq_getElem_cons missing]
    have none := (isRequired_iff.mp (h.isRequired _ (List.getElem_mem missing))).2
    rw [List.cons_append, List.all_cons, none]
    rfl
  · rw [decide_eq_true enough, List.all_eq_true]
    intro p member
    rw [positional, List.drop_append, List.drop_eq_nil_of_le enough, List.nil_append] at member
    exact (h.isOptional p (List.mem_of_mem_drop member)).2

/-- The parameters that are filled by name keep their defaults. -/
theorem bindParameters_keywords :
    bindParameters h.keywords [] =
      if h.named.all (·.default.isSome) then
        .ok (fill h.named [] ++ (h.namedRest.map fun name => (name, .tuple [])).toList)
      else .error .wrongKind := by
  have takes : ∀ p ∈ h.named, p.TakesOne [] := fun p member => .inr ⟨h.isNamed p member, rfl⟩
  rw [keywords, bindParameters_append _ takes, List.take_nil, List.drop_nil,
    bindParameters_eq_fill takes (Nat.zero_le _), List.length_nil, List.drop_zero]
  split
  · cases h.namedRest <;> rfl
  · rfl

/-- What comes after the parameters that are filled by position takes the arguments that are left,
or there must be none of these. -/
theorem bindParameters_behind (arguments : List Value) (fits : h.rest = none → arguments = []) :
    bindParameters ((h.rest.map fun name => ⟨name, .rest, none⟩).toList ++ h.keywords) arguments =
      ((h.rest.map fun name => (name, Value.tuple arguments)).toList ++ ·) <$>
        bindParameters h.keywords [] := by
  cases rest : h.rest with
  | none =>
    obtain rfl := fits rest
    exact (id_map _).symm
  | some name =>
    rw [map_eq_pure_bind]
    rfl

theorem length_required_le : h.required.length ≤ h.positional.length := by
  rw [positional, List.length_append]
  omega

/-- The arguments that are passed are enough for the parameters that are filled by position iff all
the arguments are. -/
theorem length_required_le_passed (count : Nat) :
    h.required.length ≤ min h.positional.length (min (h.passed count) count) ↔
      h.required.length ≤ count := by
  have le := h.length_required_le
  unfold passed
  split <;> omega

/-- The arguments that are passed of a list of arguments can be bound if the function accepts that
many. -/
theorem bindParameters_eq (arguments : List Value) :
    bindParameters h.parameters (arguments.take (h.passed arguments.length)) =
      if h.Accepts arguments.length then .ok (h.locals arguments) else .error .wrongKind := by
  have takes {given : List Value} : ∀ p ∈ h.positional, p.TakesOne given :=
    fun p member => .inl (h.positional_isByPosition p member)
  let given := arguments.take (h.passed arguments.length)
  have none_left : h.rest = none → given.drop h.positional.length = [] := by
    intro none
    have le := h.length_required_le
    have few : given.length ≤ h.passed arguments.length := List.length_take_le _ _
    rw [passed, none] at few
    have enough := Nat.le_trans few (Nat.min_le_left _ _)
    exact List.drop_eq_nil_of_le (Nat.le_trans enough le)
  have front : bindParameters h.positional (given.take h.positional.length) =
      if h.required.length ≤ arguments.length then .ok (fill h.positional given)
      else .error .wrongKind := by
    rw [bindParameters_eq_fill takes (List.length_take_le _ _), h.all_isSome_drop_positional,
      fill_take, List.length_take, List.length_take]
    simp only [decide_eq_true_eq, h.length_required_le_passed]
  change bindParameters (h.positional ++ _) given = _
  rw [bindParameters_append _ takes, front, h.bindParameters_behind _ none_left,
    h.bindParameters_keywords]
  by_cases accepts : h.Accepts arguments.length
  · rw [if_pos accepts, if_pos accepts.1, if_pos (List.all_eq_true.mpr accepts.2), locals]
    cases rest : h.rest with
    | none =>
      have same : given = arguments.take h.required.length := by
        simp only [given, passed, rest, Option.isSome_none, Bool.false_eq_true, if_false]
        rw [Nat.min_eq_left accepts.1]
      rw [← same]
      rfl
    | some name =>
      have same : given = arguments := by
        simp only [given, passed, rest, Option.isSome_some, if_true, List.take_length]
      rw [same]
      simp [Functor.map, Except.map, bind, Except.bind, pure, Except.pure]
  · rw [if_neg accepts]
    by_cases enough : h.required.length ≤ arguments.length
    · have missing : ¬h.named.all (·.default.isSome) = true := fun all =>
        accepts ⟨enough, List.all_eq_true.mp all⟩
      rw [if_pos enough, if_neg missing]
      rfl
    · rw [if_neg enough]
      rfl

end Heading

/-! ## Adapted callbacks -/

/-- How many arguments a function is passed is read off its parameters. -/
theorem Heading.arity_eq (h : Heading) (body : Term) (scope : Scope) (limit : Nat) :
    (Value.function (.closure h.parameters body scope)).arity limit = h.passed limit := by
  have anyRest : h.parameters.any (·.kind == .rest) = h.rest.isSome := by
    have positional : h.positional.any (·.kind == .rest) = false := by
      refine List.any_eq_false.mpr fun p member isRest => ?_
      have byPosition := h.positional_isByPosition p member
      simp_all [Parameter.isByPosition]
    have named : h.named.any (·.kind == .rest) = false := by
      refine List.any_eq_false.mpr fun p member isRest => ?_
      have byName := h.isNamed p member
      simp_all
    rw [parameters, keywords, List.any_append, List.any_append, List.any_append, positional, named]
    cases h.rest <;> cases h.namedRest <;> rfl
  have requiredOnes : h.parameters.filter Parameter.isRequired = h.required := by
    have optional : h.optional.filter Parameter.isRequired = [] := by
      refine List.filter_eq_nil_iff.mpr fun p member required => ?_
      have default := (h.isOptional p member).2
      rw [(isRequired_iff.mp required).2] at default
      cases default
    have named : h.named.filter Parameter.isRequired = [] := by
      refine List.filter_eq_nil_iff.mpr fun p member required => ?_
      have byPosition := (isRequired_iff.mp required).1
      simp [Parameter.isByPosition, h.isNamed p member] at byPosition
    rw [parameters, positional, keywords, List.filter_append, List.filter_append,
      List.filter_append, List.filter_append, List.filter_eq_self.mpr h.isRequired, optional, named]
    cases h.rest <;> cases h.namedRest <;> simp [Parameter.isRequired]
  simp only [Value.arity, Value.signature, Signature.ofParameters, anyRest, requiredOnes, passed]
  cases h.rest <;> rfl

/-- An adapted callback passes on the leading arguments that it requires. -/
theorem Evaluator.call_adapted (f : Value) (count n : Nat) (arguments : List Value) (s : Store) :
    (evaluator (n + 1)).call (.function (.adapted f (.int count))) arguments s =
      (evaluator n).call f (arguments.take count) s := by
  have cut : (Value.tuple arguments).slice s.results .none (.int count) .none =
      .ok (.tuple (arguments.take count)) := by
    have taken := sliceList_take arguments count
    simpa [Value.slice, Value.bound, Value.position, Functor.map, Except.map, bind, Except.bind,
      pure, Except.pure] using taken
  change (Store.readResults >>= fun results => _) s = _
  rw [Eval.readResults_bind, Eval.lift_bind cut]

/-- Sequencing calls its callback as one that has been adapted to a value and a remainder. -/
theorem Evaluator.continuation_eq_adapted {f : Value} (callable : f.isCallable = true)
    (v rest : Value) (n : Nat) (s : Store) :
    (evaluator n).continuation f v rest s = (Parser.asParser <$>
      (evaluator (n + 1)).call (.function (.adapted f (.int (f.arity 2)))) [v, rest] : Eval Parser)
        s := by
  have same := call_adapted f (f.arity 2) n [v, rest]
  rw [continuation, if_pos callable, show _ = _ from funext same, bind_pure_comp]

/-- A function is called with its parameters as variables, if these can be bound. -/
theorem Evaluator.call_closure (parameters : List (Parameter Value)) (body : Term) (scope : Scope)
    (n : Nat) (arguments : List Value) (s : Store) :
    (evaluator (n + 1)).call (.function (.closure parameters body scope)) arguments s =
      match bindParameters parameters arguments with
      | .ok locals => (evaluator n).eval (locals ++ scope) body s
      | .error e => .error (.error e) s := by
  have applied : (evaluator (n + 1)).call (.function (.closure parameters body scope)) arguments s =
      (liftM (bindParameters parameters arguments) >>= fun locals =>
        (evaluator n).eval (locals ++ scope) body : Eval Value) s := rfl
  rw [applied]
  cases bindParameters parameters arguments <;> rfl

/-- A function that has been adapted to so many arguments is passed the leading ones that it
requires, or all of them if it takes any number. It can be called with those iff it requires no more
arguments than there are, and none by name; that fewer are passed than there are places for is never
an error. Then the variables hold what `Heading.locals` tells. -/
theorem adapted_callback_is_bound (h : Heading) (body : Term) (scope : Scope)
    (arguments : List Value) :
    let f := Value.function (.closure h.parameters body scope)
    let adapted := Value.function (.adapted f (.int (h.passed arguments.length)))
    f.adapt (.int arguments.length) = .ok adapted ∧
    (∀ n s, (evaluator (n + 1)).call adapted arguments s =
      (evaluator n).call f (arguments.take (h.passed arguments.length)) s) ∧
    ∀ n s, (evaluator (n + 2)).call adapted arguments s =
      if h.Accepts arguments.length then
        (evaluator n).eval (h.locals arguments ++ scope) body s
      else .error (.error .wrongKind) s := by
  intro f adapted
  have passes (n : Nat) (s : Store) : (evaluator (n + 1)).call adapted arguments s =
      (evaluator n).call f (arguments.take (h.passed arguments.length)) s :=
    Evaluator.call_adapted f _ n arguments s
  refine ⟨?_, passes, fun n s => ?_⟩
  · rw [Value.adapt, Value.arityWithin_natCast, h.arity_eq]
    rfl
  · rw [passes, Evaluator.call_closure, h.bindParameters_eq]
    by_cases accepts : h.Accepts arguments.length
    · rw [if_pos accepts, if_pos accepts]
    · rw [if_neg accepts, if_neg accepts]

end GrammarKit
