import GrammarKit.Proofs.Comparison.Operation

/-! # Evaluators compare

Terms compare if the operations in them do, and so do the evaluators of every depth. An evaluator
may be watched at the places where something happens that a theorem has to speak about: uses of
parsers, calls, operations and recorded entries. Watching it with nothing in mind leaves it as it
is.
-/

namespace GrammarKit

/-- What is done in place of a use of a parser, a call, an operation and the recording of an entry.
-/
structure Watch where
  parse : Evaluator → Parser → Value → Eval (List Derivation) := Evaluator.use
  call : Evaluator → Value → List Value → Eval Value := Evaluator.apply
  operation : Evaluator → Operation → List Value → Eval Value := Evaluator.applyOperation
  record : Answer → Eval Unit := Store.record

/-- Goes no further where a parser would get a name that is no text. -/
def Watch.texts : Watch where
  operation ev operation arguments :=
    if operation.misnames arguments then throw .outOfFuel
    else ev.applyOperation operation arguments

/-- The value of a term, whose operations are watched. -/
def Evaluator.meaningUnder (watch : Watch) (ev : Evaluator) (scope : Scope) (t : Term) :
    Eval Value := do
  match t with
  | .trace term after =>
    let v ← ev.eval scope term
    watch.record (← ev.snapshot v)
    match after with
    | none => return v
    | some t => ev.eval scope t
  | .apply operation arguments => watch.operation ev operation (← ev.evalAll scope arguments)
  | t => ev.meaning scope t

/-- The evaluator of a depth, when it is watched. -/
def watched (watch : Watch) : Nat → Evaluator
  | 0 => Evaluator.exhausted
  | fuel + 1 =>
    { fuel := fuel
      parse := fun p input s => watch.parse (watched watch fuel) p input s
      call := fun f arguments s => watch.call (watched watch fuel) f arguments s
      eval := fun scope t s => (watched watch fuel).meaningUnder watch scope t s }

theorem watched_plain (n : Nat) : watched {} n = evaluator n := by
  induction n with
  | zero => rfl
  | succ n ih =>
    simp only [watched, evaluator, ih]
    congr
    funext scope t s
    cases t <;> rfl

/-- Without local variables, a variable is a global one. -/
theorem Evaluator.lookUp_nil (name : String) (s : Store) : lookUp [] name s =
    (s.globals.lookup name).elim (.error (.error (.unbound name)) s) fun v => .ok v s := by
  have read : (get : Eval Store) s = .ok s s := rfl
  change ((get : Eval Store) >>= fun _ => _) s = _
  rw [Eval.bind_of_eq_ok read]
  cases s.globals.lookup name <;> rfl

namespace Comparison

open Value (hereditary_within)

variable {c : Comparison} {w : c.World} {ev : Evaluator} {E : Nat → Evaluator}

/-- Whether what is done in the one case compares to what is done in the other one. -/
structure Respects (c : Comparison) (left right : Watch) : Prop where
  parse : ∀ {w : c.World} {ev : Evaluator} {E : Nat → Evaluator} {p : Parser} {input : Value},
    c.Tracks ev E → c.parser w p → c.value w input →
      c.holds w (left.parse ev p input) (fun m => right.parse (E m) p input) c.derivations
  call : ∀ {w : c.World} {ev : Evaluator} {E : Nat → Evaluator} {f : Value}
    {arguments : List Value}, c.Tracks ev E → c.value w f → c.values w arguments →
      c.holds w (left.call ev f arguments) (fun m => right.call (E m) f arguments) c.value
  operation : ∀ {w : c.World} {ev : Evaluator} {E : Nat → Evaluator} {o : Operation}
    {arguments : List Value}, c.Tracks ev E → c.values w arguments →
      c.holds w (left.operation ev o arguments) (fun m => right.operation (E m) o arguments)
        c.value
  record : ∀ {w : c.World} (entry : Answer),
    c.steady w (left.record entry) (fun _ => right.record entry) fun _ => True

namespace Lawful

variable (lawful : c.Lawful)

include lawful

theorem lookUpIn (scope : Scope) (name : String) (within : Value.ScopeWithin (c.bounds w) scope) :
    c.steady w (Evaluator.lookUp scope name) (fun _ => Evaluator.lookUp scope name)
      (c.value w) := by
  unfold Evaluator.lookUp
  cases found : scope.lookup name with
  | some v => exact lawful.pure ⟨rfl, within.lookup found⟩
  | none => exact lawful.lookUp

theorem evalAll (tracks : c.Tracks ev E) {scope : Scope} (ts : List Term) :
    ∀ {w : c.World}, Value.ScopeWithin (c.bounds w) scope →
      c.holds w (ev.evalAll scope ts) (fun m => (E m).evalAll scope ts) c.values := by
  induction ts with
  | nil => exact fun _ => lawful.pure (List.forall_mem_nil _)
  | cons t ts ih =>
    intro w within
    refine lawful.bind (tracks.eval w scope t within) fun w' v later value => ?_
    refine lawful.bind (ih (within.mono (lawful.wider later))) fun w'' vs later' all => ?_
    exact lawful.pure (List.forall_mem_cons.mpr ⟨value.mono (lawful.wider later'), all⟩)

theorem evalParameters (tracks : c.Tracks ev E) {scope : Scope} (ps : List (Parameter Term)) :
    ∀ {w : c.World}, Value.ScopeWithin (c.bounds w) scope →
      c.holds w (ev.evalParameters scope ps) (fun m => (E m).evalParameters scope ps)
        fun w ps => Value.DefaultsWithin (c.bounds w) ps := by
  induction ps with
  | nil => exact fun _ => lawful.pure trivial
  | cons p ps ih =>
    intro w within
    obtain ⟨name, kind, default⟩ := p
    cases default with
    | none =>
      refine lawful.bind (ih within) fun w' ps _ all => lawful.pure ?_
      exact ⟨trivial, all⟩
    | some t =>
      refine lawful.bind (tracks.eval w scope t within) fun w' v later value => ?_
      refine lawful.bind (ih (within.mono (lawful.wider later))) fun w'' ps later' all => ?_
      exact lawful.pure ⟨value.mono (lawful.wider later'), all⟩

/-- Terms compare. -/
theorem meaningUnder {left right : Watch} (respects : c.Respects left right)
    (tracks : c.Tracks ev E) {scope : Scope} (t : Term)
    (within : Value.ScopeWithin (c.bounds w) scope) :
    c.holds w (ev.meaningUnder left scope t) (fun m => (E m).meaningUnder right scope t)
      c.value := by
  match t with
  | .literal d => exact lawful.pure (Value.within_ofDatum d)
  | .variable name =>
    exact lawful.holds_of_steady (P := c.value w) (fun _ value => value)
      (lawful.lookUpIn scope name within)
  | .function parameters body =>
    refine lawful.bind (lawful.evalParameters tracks parameters within) fun w' ps later all => ?_
    exact lawful.pure ⟨all, within.mono (lawful.wider later)⟩
  | .primitive _ | .kind _ => exact lawful.pure trivial
  | .condition test whenTrue whenFalse =>
    refine lawful.bind (tracks.eval w scope test within) fun w' v later value => ?_
    have within' := within.mono (lawful.wider later)
    refine lawful.after (lawful.truth value) fun holds _ => ite (fun _ => ?_) fun _ => ?_
    · exact tracks.eval w' scope whenTrue within'
    · exact tracks.eval w' scope whenFalse within'
  | .trace term after =>
    refine lawful.bind (tracks.eval w scope term within) fun w' v later value => ?_
    refine lawful.after (lawful.snapshot tracks.fuel value) fun entry _ => ?_
    refine lawful.after (respects.record entry) fun _ _ => ?_
    cases after with
    | none => exact lawful.pure value
    | some t => exact tracks.eval w' scope t (within.mono (lawful.wider later))
  | .logged term => exact lawful.withDebug (tracks.eval w scope term within)
  | .apply operation arguments =>
    exact lawful.bind (lawful.evalAll tracks arguments within) fun w' vs _ all =>
      respects.operation tracks all

/-- Whatever is done compares in evaluations of every depth, if it does so at each place where it
is done: the induction is on the depth of the first evaluator. -/
theorem tracks {left right : Watch} (respects : c.Respects left right) (n : Nat) :
    c.Tracks (watched left n) fun m => watched right m := by
  -- One step further down on both sides.
  have below {α : Type} {w : c.World} {x : Eval α} {y : Evaluator → Eval α}
      {y' : Nat → Eval α} {Q : c.World → α → Prop} (same : ∀ m, y' (m + 1) = y (watched right m))
      (compares : c.holds w x (fun m => y (watched right m)) Q) : c.holds w x y' Q := by
    refine lawful.deepen Nat.pred (fun k => ?_) ?_ compares
    · exact (Deep.beyond (k + 1)).mono fun m le => Nat.le_pred_of_lt le
    · refine (Deep.beyond 1).mono fun m le => ?_
      obtain ⟨m, rfl⟩ : ∃ k, m = k + 1 := ⟨m - 1, by omega⟩
      exact same m
  have deeper (k : Nat) : Deep fun m => k ≤ (watched right m).fuel := by
    refine (Deep.beyond (k + 1)).mono fun m le => ?_
    obtain ⟨m, rfl⟩ : ∃ k, m = k + 1 := ⟨m - 1, by omega⟩
    exact Nat.le_of_succ_le_succ le
  induction n with
  | zero =>
    exact ⟨deeper, fun _ _ _ _ _ => lawful.outOfFuel,
      fun _ _ _ _ _ => lawful.outOfFuel, fun _ _ _ _ => lawful.outOfFuel⟩
  | succ n ih =>
    refine ⟨deeper, fun w p input parser read => ?_, fun w f arguments function all => ?_,
      fun w scope t within => ?_⟩
    · exact below (y := fun ev => right.parse ev p input) (fun _ => rfl)
        (respects.parse ih parser read)
    · exact below (y := fun ev => right.call ev f arguments) (fun _ => rfl)
        (respects.call ih function all)
    · exact below (y := fun ev => ev.meaningUnder right scope t) (fun _ => rfl)
        (lawful.meaningUnder respects ih t within)

/-- What does not misname a parser compares, if operations may do whatever else they can do. -/
theorem operation_texts (append : c.mayAppend) (text : ∀ cs, c.mayName (.text cs))
    (tracks : c.Tracks ev E) {o : Operation} {arguments : List Value}
    (all : c.values w arguments) :
    c.holds w (Watch.texts.operation ev o arguments) (fun m => (E m).applyOperation o arguments)
      c.value := by
  dsimp only [Watch.texts]
  split
  · exact lawful.outOfFuel
  · next named =>
    exact lawful.applyOperation tracks all (admits_of text (fun _ => append) (by simpa using named))

/-- An evaluator compares to deeper ones, if operations may do whatever they can do. -/
theorem tracks_evaluator (uses : c.Uses) (append : c.mayAppend) (trace : c.mayTrace)
    (name : ∀ v, c.mayName v) (n : Nat) : c.Tracks (evaluator n) fun m => evaluator m := by
  have respects : c.Respects {} {} :=
    ⟨fun tracks parser read => lawful.parse uses tracks parser read,
      fun tracks function all => lawful.apply tracks function all,
      fun tracks all => lawful.applyOperation tracks all (admits_of_name name fun _ => append),
      fun _ => lawful.record trace⟩
  simpa only [watched_plain] using lawful.tracks respects n

end Lawful

end Comparison

end GrammarKit
