import GrammarKit.Proofs.Branching.StartsWith
import GrammarKit.Proofs.Containers.Ordinary

/-! # Strings of characters in containers

A string may come as a text, or as a list or tuple of its characters. Evaluations of the three are
alike if they come to the same error or to the same value, but that what is left of the string is in
the container that the string came in. `Alike` goes along with sequences of evaluations, and so a
parser is uniform, that is, it reads strings alike whatever they come in, if its parts are.

The values that are found are ordinary, and how much is left of the string is limited, so that
parsers which refer to themselves can be dealt with by the lengths of the strings.
-/

namespace GrammarKit

/-- What a string of characters comes in. -/
inductive Container where
  | text
  | list
  | tuple
deriving DecidableEq, Repr

/-- One way of reading a string: the value of the match and the characters that are left. -/
structure Reading where
  value : Value
  rest : List Char

namespace Container

/-- A string in a container. -/
def of : Container → List Char → Value
  | text, cs => .text cs
  | list, cs => .list (Value.ofChars cs)
  | tuple, cs => .tuple (Value.ofChars cs)

/-- The derivations for readings of a string that came in a container. -/
def derivations (c : Container) (readings : List Reading) : List Derivation :=
  readings.map fun reading => ⟨reading.value, c.of reading.rest⟩

variable (c : Container) (cs : List Char) (results : Results)

theorem isOrdinary_of : (c.of cs).IsOrdinary := by
  cases c with
  | text => exact .text cs
  | list => exact .list (Value.IsOrdinary.ofChars cs)
  | tuple => exact .tuple (Value.IsOrdinary.ofChars cs)

theorem of_injective {cs cs' : List Char} (same : c.of cs = c.of cs') : cs = cs' := by
  have chars {ds ds' : List Char} (same : Value.ofChars ds = Value.ofChars ds') : ds = ds' :=
    (List.map_inj_right fun d d' same => (List.cons.inj (Value.text.inj same)).1).mp same
  cases c with
  | text => exact Value.text.inj same
  | list => exact chars (Value.list.inj same)
  | tuple => exact chars (Value.tuple.inj same)

theorem length_of : (c.of cs).length results = .ok cs.length := by
  cases c with
  | text => rfl
  | list | tuple => exact congrArg Except.ok (List.length_map _)

theorem uncons?_of_nil : (c.of []).uncons? results = .ok none := by
  cases c <;> rfl

theorem uncons?_of_cons (d : Char) :
    (c.of (d :: cs)).uncons? results = .ok (some (.text [d], c.of cs)) := by
  cases c <;> rfl

theorem derivations_injective {readings readings' : List Reading}
    (same : c.derivations readings = c.derivations readings') : readings = readings' := by
  refine (List.map_inj_right fun reading reading' same => ?_).mp same
  obtain ⟨value, left⟩ := Derivation.mk.inj same
  exact congrArg₂ Reading.mk value (c.of_injective left)

theorem derivations_append (readings readings' : List Reading) :
    c.derivations (readings ++ readings') = c.derivations readings ++ c.derivations readings' :=
  List.map_append

end Container

/-- Whether the value of a reading is ordinary and less than `limit` characters are left. -/
structure Reading.Within (limit : Nat) (reading : Reading) : Prop where
  ordinary : reading.value.IsOrdinary
  shorter : reading.rest.length < limit

theorem Reading.Within.mono {limit limit' : Nat} {reading : Reading} (le : limit ≤ limit')
    (within : reading.Within limit) : reading.Within limit' :=
  ⟨within.ordinary, Nat.lt_of_lt_of_le within.shorter le⟩

namespace Effects

section

variable {α β γ δ : Type} {b : Effects} {write : Container → α → β} {write' : Container → γ → δ}
  {P Q : α → Prop} {R : γ → Prop} {m m' : Container → Evaluator → Eval β}

/-! ## Evaluations that are alike -/

/-- Whether evaluations, one for each container, come to the same end, an error or a value of which
`P` holds, as it is written for the container. -/
def Alike (b : Effects) (write : Container → α → β) (P : α → Prop)
    (m : Container → Evaluator → Eval β) : Prop :=
  ∃ r : Except Error α, (∀ c, b.Settles (m c) (write c <$> r)) ∧ ∀ a, r = .ok a → P a

/-- Whether an evaluation in which no container has a part comes to an end, an error or a value of
which `P` holds. -/
abbrev Concludes (b : Effects) (P : α → Prop) (m : Evaluator → Eval α) : Prop :=
  b.Alike (fun _ a => a) P fun _ => m

theorem Concludes.of_settles {m : Evaluator → Eval α} {r : Except Error α}
    (settles : b.Settles m r) (holds : ∀ a, r = .ok a → P a) : b.Concludes P m :=
  ⟨r, fun _ => by rwa [id_map'], holds⟩

theorem Concludes.lift {r : Except Error α} (holds : ∀ a, r = .ok a → P a) :
    b.Concludes P fun _ => liftM r :=
  .of_settles (Settles.lift r) holds

theorem Concludes.pure {a : α} (holds : P a) : b.Concludes P fun _ => Pure.pure a :=
  .lift (r := .ok a) (by rintro _ ⟨⟩; exact holds)

namespace Alike

theorem pure {a : α} (holds : P a) : b.Alike write P fun c _ => Pure.pure (write c a) :=
  ⟨.ok a, fun c => Settles.lift (.ok (write c a)), by rintro _ ⟨⟩; exact holds⟩

theorem raise (e : Error) : b.Alike write P fun _ _ => raise e :=
  ⟨.error e, fun _ => Settles.lift (.error e), nofun⟩

/-- Sequences are alike if their second parts are, after each value of the first ones. -/
theorem bind {k : Container → Evaluator → β → Eval δ} (first : b.Alike write P m)
    (second : ∀ a, P a → b.Alike write' R fun c ev => k c ev (write c a)) :
    b.Alike write' R fun c ev => m c ev >>= k c ev := by
  obtain ⟨r, settles, holds⟩ := first
  cases r with
  | ok a =>
    obtain ⟨r', settles', holds'⟩ := second a (holds a rfl)
    exact ⟨r', fun c => (settles c).bind (settles' c), holds'⟩
  | error e => exact ⟨.error e, fun c => (settles c).error_bind, nofun⟩

theorem congr (alike : b.Alike write P m) (same : ∀ c n s, b.start s →
    m' c (evaluator n) s = m c (evaluator n) s) : b.Alike write P m' := by
  obtain ⟨r, settles, holds⟩ := alike
  exact ⟨r, fun c => (settles c).congr (same c), holds⟩

theorem mono (alike : b.Alike write P m) (weaker : ∀ a, P a → Q a) : b.Alike write Q m := by
  obtain ⟨r, settles, holds⟩ := alike
  exact ⟨r, settles, fun a value => weaker a (holds a value)⟩

/-- The evaluators that an evaluator uses are those of the depth before. -/
theorem deeper (alike : b.Alike write P m)
    (next : ∀ c n, m' c (evaluator (n + 1)) = m c (evaluator n)) : b.Alike write P m' := by
  obtain ⟨r, settles, holds⟩ := alike
  exact ⟨r, fun c => (settles c).deeper (next c), holds⟩

/-- What is read off the result lists has no part in what follows, except for the runtime. -/
theorem readResults_bind {k : Container → Evaluator → Results → Eval β}
    (alike : b.Alike write P m)
    (same : ∀ c n results, results.runtime = b.runtime →
      k c (evaluator n) results = m c (evaluator n)) :
    b.Alike write P fun c ev => Store.readResults >>= k c ev :=
  alike.congr fun c n s start => congrFun (same c n s.results (b.ran s start)) s

end Alike

end

/-! ## Uniform parsers -/

/-- Whether evaluations, one for each container, come to the same readings, with less than `limit`
characters left, or to the same error. -/
abbrev Reads (b : Effects) (limit : Nat) (m : Container → Evaluator → Eval (List Derivation)) :
    Prop :=
  b.Alike Container.derivations (fun readings => ∀ reading ∈ readings, reading.Within limit) m

/-- Whether a parser reads a string alike whatever it comes in, with less than `limit` characters
left; the parser can be shown, should messages be recorded. -/
structure Uniform (b : Effects) (p : Parser) (cs : List Char) (limit : Nat) : Prop where
  shown : b.Shows p.toValue
  actual : p.isForeign = false
  produces : b.Reads limit fun c ev => ev.produce p (c.of cs)

/-- Whether a parser is uniform on strings of less than `limit` characters. -/
def UniformBelow (b : Effects) (limit : Nat) (p : Parser) : Prop :=
  ∀ cs, cs.length < limit → b.Uniform p cs (cs.length + 1)

variable {b : Effects} {p q : Parser} {cs : List Char} {limit limit' : Nat} {v : Value}

namespace Uniform

theorem mono (uniform : b.Uniform p cs limit) (le : limit ≤ limit') : b.Uniform p cs limit' :=
  ⟨uniform.shown, uniform.actual, uniform.produces.mono fun _ within reading member =>
    (within reading member).mono le⟩

/-- The messages around a use of a parser change nothing about what is read. -/
theorem reads (uniform : b.Uniform p cs limit) :
    b.Reads limit fun c ev => ev.parse p (c.of cs) := by
  have shown : b.Shows (.parser p) := by
    have shown := uniform.shown
    have actual := uniform.actual
    obtain ⟨shape, mapping, name⟩ := p
    cases shape with
    | foreign _ => cases actual
    | _ => exact shown
  obtain ⟨r, settles, within⟩ := uniform.produces
  refine ⟨r, fun c => ?_, within⟩
  exact (settles_use uniform.actual shown ((c.isOrdinary_of cs).shows b) (settles c)).deeper
    fun _ => rfl

/-- A parser without a mapping reads what it processes. -/
theorem of_process (shown : b.Shows p.toValue) (actual : p.isForeign = false)
    (unmapped : p.mapping = none) (processed : b.Reads limit fun c ev => ev.process p (c.of cs)) :
    b.Uniform p cs limit :=
  ⟨shown, actual, processed.congr fun _ _ _ _ => by
    rw [Evaluator.produce_of_mapping_eq_none unmapped]⟩

/-- The name of a parser that is not lazy has no part in what it reads. -/
theorem named (uniform : b.Uniform p cs limit) (eager : p.isLazy = false) (copied : p.copy = p)
    (name : List Char) : b.Uniform (p.named (.text name)) cs limit := by
  have renamed : p.named (.text name) = .node p.shape p.mapping (some (.text name)) :=
    congrArg (fun q : Parser => Parser.node q.shape p.mapping (some (.text name))) copied
  rw [renamed]
  obtain ⟨shape, mapping, name'⟩ := p
  have actual : (Parser.node shape mapping (some (.text name))).isForeign = false := by
    have actual := uniform.actual
    cases shape with
    | foreign _ => cases actual
    | _ => rfl
  refine ⟨.of_parts (Value.shownBy_named actual) (List.forall_mem_nil _), actual,
    uniform.produces.congr fun c n s _ => ?_⟩
  have same : (evaluator n).process (.node shape mapping (some (.text name))) (c.of cs) =
      (evaluator n).process (.node shape mapping name') (c.of cs) := by
    refine funext fun s => Evaluator.process_congr (fun address same => ?_) _ _
    subst same
    cases eager
  simp only [Evaluator.produce, Parser.shape, Parser.mapping, same]

end Uniform

theorem UniformBelow.mono (uniform : b.UniformBelow limit' p) (le : limit ≤ limit') :
    b.UniformBelow limit p :=
  fun cs short => uniform cs (Nat.lt_of_lt_of_le short le)

/-- What is read of a string leaves no more than what is allowed to be left of it. -/
theorem UniformBelow.reads (uniform : b.UniformBelow limit p) (short : cs.length < limit) :
    b.Reads limit fun c ev => ev.parse p (c.of cs) :=
  ((uniform cs short).mono short).reads

theorem UniformBelow.named (uniform : b.UniformBelow limit p) (eager : p.isLazy = false)
    (copied : p.copy = p) (name : List Char) : b.UniformBelow limit (p.named (.text name)) :=
  fun cs short => (uniform cs short).named eager copied name

/-! ## Basic variants -/

theorem uniform_zero (cs : List Char) (limit : Nat) : b.Uniform .zero cs limit :=
  .of_process (.of_parts Value.shownBy_zero (List.forall_mem_nil _)) rfl rfl
    (.pure (a := []) (List.forall_mem_nil _))

theorem uniform_result (ordinary : v.IsOrdinary) (cs : List Char) :
    b.Uniform (.result v) cs (cs.length + 1) := by
  have reading : ∀ reading ∈ [(⟨v, cs⟩ : Reading)], reading.Within (cs.length + 1) :=
    List.forall_mem_singleton.mpr ⟨ordinary, Nat.lt_succ_self _⟩
  refine .of_process (.of_parts (Value.shownBy_result v) ?_) rfl rfl
    ((Alike.pure reading).congr fun c n s _ => ?_)
  · exact List.forall_mem_singleton.mpr (ordinary.shows b)
  · cases ordinary <;> rfl

/-- An ordinary value in the place of a parser. -/
theorem uniform_asParser (ordinary : v.IsOrdinary) : b.UniformBelow limit (Parser.asParser v) := by
  intro cs _
  have same : Parser.asParser v = .result v := by cases ordinary <;> rfl
  rw [same]
  exact uniform_result ordinary cs

/-- A character is consumed, if there is one. -/
theorem uniform_item (cs : List Char) : b.Uniform .item cs cs.length := by
  refine .of_process (.of_parts Value.shownBy_item (List.forall_mem_nil _)) rfl rfl ?_
  cases cs with
  | nil =>
    refine (Alike.pure (a := []) (List.forall_mem_nil _)).readResults_bind fun c n results _ => ?_
    rw [c.uncons?_of_nil]
    rfl
  | cons d cs =>
    have reading : ∀ reading ∈ [(⟨.text [d], cs⟩ : Reading)], reading.Within (d :: cs).length :=
      List.forall_mem_singleton.mpr ⟨.text [d], Nat.lt_succ_self _⟩
    refine (Alike.pure reading).readResults_bind fun c n results _ => ?_
    rw [c.uncons?_of_cons]
    rfl

/-! ## Sequencing -/

/-- Whether what follows a parser has an end after every ordinary value and is then uniform on
strings of less than `limit` characters. -/
def Follows (b : Effects) (limit : Nat) (next : Value) : Prop :=
  ∀ v rest, v.IsOrdinary → b.Alike (fun _ q => q) (b.UniformBelow limit) fun c ev =>
    ev.continuation next v (c.of rest)

variable {next : Value}

theorem Follows.mono (follows : b.Follows limit' next) (le : limit ≤ limit') :
    b.Follows limit next :=
  fun v rest ordinary => (follows v rest ordinary).mono fun _ uniform => uniform.mono le

theorem UniformBelow.follows (uniform : b.UniformBelow limit q) : b.Follows limit (.parser q) :=
  fun _ _ _ => Concludes.pure uniform

/-- A step of the library receives the value alone. -/
theorem follows_step {f : Callback} (unary : (Value.function f).arity 2 = 1)
    (given : ∀ v, v.IsOrdinary → b.Concludes (fun w => b.UniformBelow limit (Parser.asParser w))
      fun ev => ev.call (.function f) [v]) : b.Follows limit (.function f) := by
  intro v rest ordinary
  have called : b.Alike (fun _ q => q) (b.UniformBelow limit) fun _ ev =>
      ev.call (.function f) [v] >>= fun w => pure (Parser.asParser w) :=
    (given v ordinary).bind fun w uniform => Concludes.pure uniform
  have callable : (Value.function f).isCallable = true := rfl
  refine called.congr fun c n s _ => ?_
  rw [Evaluator.continuation, if_pos callable, unary]
  rfl

/-- What follows each of several readings, joined in their order. -/
theorem Follows.reads_continueAll (follows : b.Follows limit next) (readings : List Reading)
    (within : ∀ reading ∈ readings, reading.Within limit) :
    b.Reads limit fun c ev => ev.continueAll next (c.derivations readings) := by
  induction readings with
  | nil => exact .pure (a := []) (List.forall_mem_nil _)
  | cons reading readings ih =>
    obtain ⟨here, others⟩ := List.forall_mem_cons.mp within
    refine (follows reading.value reading.rest here.ordinary).bind fun q uniform => ?_
    refine (uniform.reads here.shorter).bind fun found inside => ?_
    refine (ih others).bind fun further inside' => ?_
    refine (Alike.pure (List.forall_mem_append.mpr ⟨inside, inside'⟩)).congr fun c _ _ _ => ?_
    rw [c.derivations_append]

theorem process_bind_never (ev : Evaluator) (p : Parser) (next x : Value) :
    ev.process (p.bind next (.bool false)) x = ev.parse p x >>= ev.continueAll next := by
  refine bind_congr fun found => ?_
  cases found <;> rfl

theorem Uniform.bind (first : b.Uniform p cs limit) (follows : b.Follows limit next) :
    b.Uniform (p.bind next (.bool false)) cs limit := by
  refine .of_process (.of_parts (Value.shownBy_bind p _ _) ?_) rfl rfl
    ((first.reads.bind follows.reads_continueAll).congr fun c n s _ => ?_)
  · exact List.forall_mem_singleton.mpr first.shown
  · rw [process_bind_never]

theorem UniformBelow.bind (first : b.UniformBelow limit p) (follows : b.Follows limit next) :
    b.UniformBelow limit (p.bind next (.bool false)) :=
  fun cs short => (first cs short).bind (follows.mono short)

/-- What follows in any case follows the empty text where nothing is read. -/
theorem UniformBelow.bind_always (first : b.UniformBelow limit p) (follows : b.Follows limit next) :
    b.UniformBelow limit (p.bind next (.bool true)) := by
  intro cs short
  refine .of_process (.of_parts (Value.shownBy_bind p _ _)
    (List.forall_mem_singleton.mpr (first cs short).shown)) rfl rfl ?_
  have continued : b.Reads (cs.length + 1) fun c ev => ev.parse p (c.of cs) >>= fun found =>
      ev.continueAll next (orDefault (c.of cs) found) := by
    refine (first cs short).reads.bind fun readings within => ?_
    cases readings with
    | nil =>
      refine (follows.mono short).reads_continueAll [⟨.text [], cs⟩] ?_
      exact List.forall_mem_singleton.mpr ⟨.text [], Nat.lt_succ_self _⟩
    | cons reading readings => exact (follows.mono short).reads_continueAll _ within
  refine continued.congr fun c n s _ => ?_
  rw [process_bind_always]

/-! ## Ordered choice -/

theorem reads_firstOf {ps : List Parser} (all : ∀ p ∈ ps, b.Uniform p cs limit) :
    b.Reads limit fun c ev => ev.firstOf (c.of cs) ps := by
  induction ps with
  | nil => exact .pure (a := []) (List.forall_mem_nil _)
  | cons p ps ih =>
    obtain ⟨here, others⟩ := List.forall_mem_cons.mp all
    refine here.reads.bind fun readings within => ?_
    cases readings with
    | nil => exact ih others
    | cons reading readings => exact .pure within

theorem Uniform.orElse {alternatives : List Value} (first : b.Uniform p cs limit)
    (others : ∀ v ∈ alternatives, b.Uniform (Parser.asParser v) cs limit) :
    b.Uniform (p.orElse alternatives) cs limit := by
  have all : ∀ q ∈ p :: alternatives.map Parser.asParser, b.Uniform q cs limit :=
    List.forall_mem_cons.mpr ⟨first, List.forall_mem_map.mpr others⟩
  refine .of_process (.of_parts (Value.shownBy_choice _) ?_) rfl rfl (reads_firstOf all)
  exact List.forall_mem_map.mpr fun q member => (all q member).shown

theorem UniformBelow.orElse {alternatives : List Value} (first : b.UniformBelow limit p)
    (others : ∀ v ∈ alternatives, b.UniformBelow limit (Parser.asParser v)) :
    b.UniformBelow limit (p.orElse alternatives) :=
  fun cs short => (first cs short).orElse fun v member => others v member cs short

/-! ## Mappings -/

/-- Whether a function has an end on ordinary values, and makes ordinary values of them. -/
def Maps (b : Effects) (f : Value) : Prop :=
  ∀ v, v.IsOrdinary → b.Concludes Value.IsOrdinary fun ev => ev.call f [v]

theorem reads_mapValues {f : Value} (maps : b.Maps f) (readings : List Reading)
    (within : ∀ reading ∈ readings, reading.Within limit) :
    b.Reads limit fun c ev => ev.mapValues f (c.derivations readings) := by
  induction readings with
  | nil => exact .pure (a := []) (List.forall_mem_nil _)
  | cons reading readings ih =>
    obtain ⟨here, others⟩ := List.forall_mem_cons.mp within
    refine (maps reading.value here.ordinary).bind fun w ordinary => ?_
    refine (ih others).bind fun found inside => ?_
    have all : ∀ other ∈ (⟨w, reading.rest⟩ : Reading) :: found, other.Within limit :=
      List.forall_mem_cons.mpr ⟨⟨ordinary, here.shorter⟩, inside⟩
    exact (Alike.pure all).congr fun _ _ _ _ => rfl

/-! ## Lazy parsers -/

/-- A copy of a lazy parser reads what the parser that it comes to reads, with the values mapped. -/
theorem Uniform.lazy {address : Nat} (copy : p.shape = .lazy address) (shown : b.Shows p.toValue)
    (maps : ∀ f, p.mapping = some f → b.Maps f)
    (resolves : b.Settles (fun ev => ev.resolve address (.parser p)) (.ok q))
    (body : b.Uniform q cs limit) : b.Uniform p cs limit := by
  obtain ⟨_, mapping, name⟩ := p
  cases copy
  have resolved : b.Concludes (· = q) fun ev =>
      ev.resolve address (.parser (.node (.lazy address) mapping name)) :=
    .of_settles resolves fun a same => (Except.ok.inj same).symm
  have processed : b.Reads limit fun c ev =>
      ev.process (.node (.lazy address) mapping name) (c.of cs) := by
    refine resolved.bind ?_
    rintro _ rfl
    exact body.reads
  cases mapping with
  | none => exact .of_process shown rfl rfl processed
  | some f =>
    exact ⟨shown, rfl, processed.bind fun readings within =>
      reads_mapValues (maps f rfl) readings within⟩

end Effects

end GrammarKit
