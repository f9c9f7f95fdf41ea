import GrammarKit.Proofs.Deep
import GrammarKit.Proofs.Effects
import GrammarKit.Proofs.Sequence

/-! # What parsers yield within their effects

One rule for each way a parser is put together, whatever the effects are that its evaluation may
have: what it settles at, in terms of what its parts settle at. Of values from outside the rules ask
that these can be shown, should messages be recorded.
-/

namespace GrammarKit

/-- Whether a value stands for itself as a continuation: it is neither a parser nor the mark of an
argument that was left out. -/
def Value.IsPlain : Value → Prop
  | .parser _ | .missing => False
  | _ => True

/-- The arguments that a callback receives after a value and a remainder: as many as it takes. -/
def Value.received (f v rest : Value) : List Value := [v, rest].take (f.arity 2)

namespace Effects

variable {b : Effects}

/-! ## Texts -/

/-- While no messages are recorded, nothing has to have a text. -/
theorem Shows.of_quiet {v : Value} (quiet : b.debug = false) : b.Shows v := by
  intro debug
  rw [quiet] at debug
  cases debug

/-- A value has a text where the values that it is shown by have one. -/
theorem Shows.of_parts {v : Value} {ws : List Value} (composed : v.ShownBy ws)
    (parts : ∀ w ∈ ws, b.Shows w) : b.Shows v := by
  intro debug
  have each : Deep fun n => ∀ w ∈ ws, ∀ s, b.start s →
      ∃ text, (evaluator n).describe w s = .ok text s :=
    .forall_mem fun w member => parts w member debug
  refine Deep.of_succ (Deep.of_succ (each.succ.mono fun n all s start => ?_))
  obtain ⟨text, shows⟩ := composed (Value.display s.results.unlimited n) s.results
      fun w member => by
    obtain ⟨text, shows⟩ := all w member s start
    exact ⟨text, (Evaluator.describe_eq_ok_iff.mp shows).1⟩
  exact ⟨text, Evaluator.describe_eq_ok_iff.mpr ⟨shows, rfl⟩⟩

theorem shows_text (cs : List Char) : b.Shows (.text cs) :=
  .of_parts (Value.shownBy_text cs) (List.forall_mem_nil _)

theorem shows_int (n : Int) : b.Shows (.int n) :=
  .of_parts (Value.shownBy_int n) (List.forall_mem_nil _)

theorem shows_function (f : Callback) : b.Shows (.function f) :=
  .of_parts (Value.shownBy_function f) (List.forall_mem_nil _)

/-- A parser is shown by what a sequence begins with. -/
theorem shows_bind {p : Parser} (shown : b.Shows p.toValue) (next always : Value) :
    b.Shows (p.bind next always).toValue :=
  .of_parts (Value.shownBy_bind p next always) (List.forall_mem_singleton.mpr shown)

/-! ## Parsers -/

/-- Whether a parser comes to the end `r` on an input; both can be shown, should messages be
recorded. -/
structure Yields (b : Effects) (p : Parser) (x : Value) (r : Except Error (List Derivation)) :
    Prop where
  shown : b.Shows p.toValue
  read : b.Shows x
  settles : b.Settles (fun ev => ev.parse p x) r

/-- Whether a function comes to the end `r` on arguments. -/
def Gives (b : Effects) (f : Value) (arguments : List Value) (r : Except Error Value) : Prop :=
  b.Settles (fun ev => ev.call f arguments) r

variable {p : Parser} {x v w : Value} {r : Except Error (List Derivation)} {d : Derivation}
  {ds : List Derivation}

theorem Gives.of_apply {f : Value} {arguments : List Value} {o : Except Error Value}
    (applied : b.Settles (fun ev => ev.apply f arguments) o) : b.Gives f arguments o :=
  Settles.deeper applied fun _ => rfl

/-- The steps of the library's combinators are applied to one value. -/
theorem Gives.of_step {f : Callback} {o : Except Error Value}
    (step : ∀ ev : Evaluator, ev.applyCallback f [v] = ev.applyStep f v)
    (applied : b.Settles (fun ev => ev.applyStep f v) o) : b.Gives (.function f) [v] o := by
  refine .of_apply (applied.congr fun n s _ => ?_)
  rw [Evaluator.apply, step]

/-- A step that goes on with a parser. -/
theorem gives_next {f : Callback} {q : Parser}
    (step : ∀ ev : Evaluator, ev.applyCallback f [v] = pure (.parser q)) :
    b.Gives (.function f) [v] (.ok (.parser q)) := by
  refine .of_apply ((Settles.lift (.ok _)).congr fun n s _ => ?_)
  rw [Evaluator.apply, step]
  rfl

/-- Whether a parser comes to the end `r` on an input, before the message about that. -/
structure Produces (b : Effects) (p : Parser) (x : Value) (r : Except Error (List Derivation)) :
    Prop where
  shown : b.Shows p.toValue
  read : b.Shows x
  actual : p.isForeign = false
  settles : b.Settles (fun ev => ev.produce p x) r

/-- A parser without a mapping produces what it processes. -/
theorem Produces.of_process (shown : b.Shows p.toValue) (read : b.Shows x)
    (actual : p.isForeign = false) (unmapped : p.mapping = none)
    (processed : b.Settles (fun ev => ev.process p x) r) : b.Produces p x r :=
  ⟨shown, read, actual, processed.congr fun _ _ _ => by
    rw [Evaluator.produce_of_mapping_eq_none unmapped]⟩

/-- A parser yields what it produces. -/
theorem Produces.yields (produces : b.Produces p x r) : b.Yields p x r := by
  obtain ⟨shown, read, actual, settles⟩ := produces
  have shown' : b.Shows (.parser p) := by
    obtain ⟨shape, mapping, name⟩ := p
    cases shape with
    | foreign _ => cases actual
    | _ => exact shown
  exact ⟨shown, read, (settles_use actual shown' read settles).deeper fun _ => rfl⟩

/-- The name of a parser that is not lazy has no part in what it yields. -/
theorem Produces.named (produces : b.Produces p x r) (eager : p.isLazy = false) (cs : List Char) :
    b.Yields (.node p.shape p.mapping (some (.text cs))) x r := by
  obtain ⟨shape, mapping, name⟩ := p
  obtain ⟨-, read, actual, settles⟩ := produces
  have actual' : (Parser.node shape mapping (some (.text cs))).isForeign = false := by
    cases shape with
    | foreign _ => cases actual
    | _ => rfl
  refine Produces.yields ⟨.of_parts (Value.shownBy_named actual') (List.forall_mem_nil _), read,
    actual', settles.congr fun n s _ => ?_⟩
  have same : (evaluator n).process (.node shape mapping (some (.text cs))) x =
      (evaluator n).process (.node shape mapping name) x := by
    refine funext fun s => Evaluator.process_congr (fun address same => ?_) _ x
    subst same
    cases eager
  simp only [Evaluator.produce, Parser.shape, Parser.mapping, same]

/-- A parser without a mapping yields what it processes. -/
theorem Yields.of_process (shown : b.Shows p.toValue) (read : b.Shows x)
    (actual : p.isForeign = false) (unmapped : p.mapping = none)
    (processed : b.Settles (fun ev => ev.process p x) r) : b.Yields p x r :=
  (Produces.of_process shown read actual unmapped processed).yields

/-- What a parser yields is unique, if there is a store to start from. -/
theorem Yields.unique {s : Store} {r' : Except Error (List Derivation)} (start : b.start s)
    (yields : b.Yields p x r) (yields' : b.Yields p x r') : r = r' :=
  yields.settles.unique start yields'.settles

/-- What has been parsed is no value in the place of a parser. -/
theorem Yields.actual {s : Store} (start : b.start s) (yields : b.Yields p x (.ok ds)) :
    p.isForeign = false := by
  cases foreign : p.isForeign with
  | false => rfl
  | true =>
    have failed : b.Settles (fun ev => ev.parse p x) (.error .noAttribute) := by
      refine Settles.deeper (m := fun ev => ev.use p x) ?_ fun _ => rfl
      refine (Settles.lift (.error .noAttribute)).congr fun n s _ => ?_
      rw [Evaluator.use, if_pos foreign]
      rfl
    cases yields.settles.unique start failed

theorem yields_zero (read : b.Shows x) : b.Yields .zero x (.ok []) :=
  .of_process (.of_parts Value.shownBy_zero (List.forall_mem_nil _)) read rfl rfl
    (Settles.lift (.ok []))

/-- A plain value, as it is. -/
theorem yields_result (shown : b.Shows v) (read : b.Shows x) (given : v ≠ .missing) :
    b.Yields (.result v) x (.ok [⟨v, x⟩]) := by
  refine .of_process (.of_parts (Value.shownBy_result v) (List.forall_mem_singleton.mpr shown))
    read rfl rfl ?_
  cases v with
  | missing => exact absurd rfl given
  | _ => exact Settles.lift (.ok _)

/-- Values that are neither parsers nor missing stand for themselves. -/
theorem yields_asParser (plain : v.IsPlain) (shown : b.Shows v) (read : b.Shows x) :
    b.Yields (Parser.asParser v) x (.ok [⟨v, x⟩]) := by
  cases v with
  | parser _ | missing => exact plain.elim
  | _ => exact yields_result shown read (by nofun)

/-! ## Sequencing -/

section

variable {ι : Type} {next : Value} {after : ι → Except Error (List Derivation)}

/-- What is appended for each of several derivations is joined in their order; the first error
ends it. -/
theorem settles_continueAll (found : ι → Derivation) (is : List ι)
    (continues : ∀ i ∈ is, b.Settles (fun ev =>
      ev.continuation next (found i).value (found i).remainder >>= (ev.parse · (found i).remainder))
      (after i)) :
    b.Settles (fun ev => ev.continueAll next (is.map found)) (List.flatten <$> is.mapM after) := by
  induction is with
  | nil => exact Settles.lift (.ok [])
  | cons i is ih =>
    have first := continues i List.mem_cons_self
    have others := ih fun other member => continues other (List.mem_cons_of_mem _ member)
    have joined : List.flatten <$> (i :: is).mapM after = after i >>= fun ds =>
        (List.flatten <$> is.mapM after) >>= fun rest => .ok (ds ++ rest) := by
      simp only [List.mapM_cons, map_eq_pure_bind, bind_assoc, pure_bind, List.flatten_cons]
      rfl
    rw [joined]
    have both := first.bind_all fun ds _ => others.bind_all fun rest _ =>
      Settles.lift (.ok (ds ++ rest))
    refine both.congr fun n s _ => ?_
    simp only [List.map_cons, Evaluator.continueAll, bind_assoc]
    rfl

/-- Sequencing: the continuation is evaluated after each derivation, in order. -/
theorem settles_bind (found : ι → Derivation) (is : List ι)
    (first : b.Settles (fun ev => ev.parse p x) (.ok (is.map found)))
    (continues : ∀ i ∈ is, b.Settles (fun ev =>
      ev.continuation next (found i).value (found i).remainder >>= (ev.parse · (found i).remainder))
      (after i)) :
    b.Settles (fun ev => ev.process (p.bind next (.bool false)) x)
      (List.flatten <$> is.mapM after) := by
  refine first.bind ?_
  cases is with
  | nil => exact Settles.lift (.ok [])
  | cons i is => exact settles_continueAll found (i :: is) continues

/-- The continuation after a value is what the callback gives for it. -/
theorem settles_continuation_of_gives {f rest : Value} (callable : f.isCallable = true)
    {o : Except Error Value} (given : b.Gives f (f.received v rest) o) :
    b.Settles (fun ev => ev.continuation f v rest) (Parser.asParser <$> o) := by
  have called : b.Settles (fun ev => ev.call f (f.received v rest) >>= fun w =>
      pure (Parser.asParser w)) (o >>= fun w => .ok (Parser.asParser w)) :=
    given.bind_all fun w _ => Settles.lift (.ok (Parser.asParser w))
  refine called.congr fun n s _ => ?_
  rw [Evaluator.continuation, if_pos callable]
  rfl

variable {f : Callback} {rest : Value}

/-- A step receives the value alone. -/
theorem settles_continuation (unary : (Value.function f).arity 2 = 1) {o : Except Error Value}
    (given : b.Gives (.function f) [v] o) :
    b.Settles (fun ev => ev.continuation (.function f) v rest) (Parser.asParser <$> o) := by
  refine settles_continuation_of_gives rfl ?_
  rwa [Value.received, unary]

/-- After each derivation: what the step gives for its value, evaluated on the remainder. -/
theorem yields_step_flatMap (unary : (Value.function f).arity 2 = 1) (found : ι → Derivation)
    {is : List ι} {k : ι → Value} {after : ι → List Derivation}
    (first : b.Yields p x (.ok (is.map found)))
    (given : ∀ i ∈ is, b.Gives (.function f) [(found i).value] (.ok (k i)))
    (second : ∀ i ∈ is, b.Yields (Parser.asParser (k i)) (found i).remainder (.ok (after i))) :
    b.Yields (p.step f) x (.ok (is.flatMap after)) := by
  have joined : List.flatten <$> is.mapM (fun i => (.ok (after i) : Except Error _)) =
      .ok (is.flatMap after) := by
    rw [Except.mapM_ok]
    rfl
  rw [← joined]
  refine .of_process (.of_parts (Value.shownBy_bind p _ _) ?_) first.read rfl rfl ?_
  · exact List.forall_mem_singleton.mpr first.shown
  · exact settles_bind found is first.settles fun i member =>
      (settles_continuation unary (given i member)).bind (second i member).settles

/-- A parser of its own after each derivation, whatever the values are. -/
theorem yields_bind_flatMap {q : Parser} (found : ι → Derivation) {is : List ι}
    {after : ι → List Derivation} (first : b.Yields p x (.ok (is.map found)))
    (second : ∀ i ∈ is, b.Yields q (found i).remainder (.ok (after i))) :
    b.Yields (p.bind (.parser q) (.bool false)) x (.ok (is.flatMap after)) := by
  have joined : List.flatten <$> is.mapM (fun i => (.ok (after i) : Except Error _)) =
      .ok (is.flatMap after) := by
    rw [Except.mapM_ok]
    rfl
  rw [← joined]
  refine .of_process (.of_parts (Value.shownBy_bind p _ _) ?_) first.read rfl rfl ?_
  · exact List.forall_mem_singleton.mpr first.shown
  · refine settles_bind found is first.settles fun i member => ?_
    exact (Settles.lift (.ok q)).bind (second i member).settles

end

/-! ## Tests -/

/-- Whether a condition comes to the end `o` on a value. -/
def Decides (b : Effects) (condition v : Value) (o : Except Error Bool) : Prop :=
  b.Settles (fun ev => ev.call condition [v] >>= fun w => Evaluator.truth w) o

/-- The test of a value gives the value, or a parser that fails. -/
theorem gives_test {condition : Value} {o : Except Error Bool}
    (decides : b.Decides condition v o) :
    b.Gives (.function (.test condition)) [v]
      (o >>= fun h => .ok (if h then v else .parser .zero)) := by
  have tested : b.Settles (fun ev => (ev.call condition [v] >>= fun w => Evaluator.truth w) >>=
      fun h => if h then pure v else pure (Value.parser .zero))
      (o >>= fun h => .ok (if h then v else Value.parser .zero)) := by
    refine decides.bind_all fun h _ => ?_
    cases h with
    | true => exact Settles.lift (.ok v)
    | false => exact Settles.lift (.ok (Value.parser .zero))
  exact .of_step (fun _ => rfl) (tested.congr fun n s _ => congrFun (bind_assoc ..).symm s)

/-! ## Ordered choice -/

theorem settles_orElse_left (first : b.Settles (fun ev => ev.parse p x) (.ok (d :: ds))) :
    b.Settles (fun ev => ev.process (p.orElse [v]) x) (.ok (d :: ds)) :=
  first.bind (Settles.lift (.ok (d :: ds)))

/-- Where a parser fails, the only alternative to it decides. -/
theorem settles_orElse_right (first : b.Settles (fun ev => ev.parse p x) (.ok []))
    (second : b.Settles (fun ev => ev.parse (Parser.asParser v) x) r) :
    b.Settles (fun ev => ev.process (p.orElse [v]) x) r := by
  refine first.bind ?_
  cases r with
  | ok ds =>
    refine second.bind (a := ds) ?_
    cases ds with
    | nil => exact Settles.lift (.ok [])
    | cons d ds => exact Settles.lift (.ok (d :: ds))
  | error e => exact second.error_bind

theorem shows_orElse (shown : b.Shows p.toValue) (other : b.Shows (Parser.asParser v).toValue) :
    b.Shows (p.orElse [v]).toValue :=
  .of_parts (Value.shownBy_orElse p v)
    (List.forall_mem_cons.mpr ⟨shown, List.forall_mem_singleton.mpr other⟩)

/-- A parser with a plain value to fall back on: what the parser comes to, or else that value alone,
with nothing consumed. -/
theorem settles_orElse_value (plain : v.IsPlain) (shown : b.Shows v)
    (first : b.Yields p x (.ok ds)) :
    b.Settles (fun ev => ev.process (p.orElse [v]) x)
      (.ok (if ds = [] then [⟨v, x⟩] else ds)) := by
  cases ds with
  | nil => exact settles_orElse_right first.settles (yields_asParser plain shown first.read).settles
  | cons d ds => exact settles_orElse_left first.settles

theorem yields_orElse_value (plain : v.IsPlain) (shown : b.Shows v)
    (first : b.Yields p x (.ok ds)) :
    b.Yields (p.orElse [v]) x (.ok (if ds = [] then [⟨v, x⟩] else ds)) :=
  .of_process (shows_orElse first.shown (yields_asParser plain shown first.read).shown) first.read
    rfl rfl (settles_orElse_value plain shown first)

end Effects

end GrammarKit
