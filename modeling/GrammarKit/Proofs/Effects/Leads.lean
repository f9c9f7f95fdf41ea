import GrammarKit.Proofs.Comparison.Deeper
import GrammarKit.Proofs.Effects.Yields

/-! # Evaluations that lead elsewhere

An evaluation that settles may be repeated: it can start again from every store that it leaves. Most
evaluations cannot, since what they trace, hand out and define is there afterwards. Of these
`Leads` tells the end and what is known of the store that it is reached in. What comes after such an
evaluation starts from there and may settle again, within effects of its own.
-/

namespace GrammarKit.Effects

/-- From some depth on, the evaluation comes to the end `r`, in a store of which `holds` says what
is known. -/
def Leads {α : Type} (b : Effects) (holds : Store → Prop) (m : Evaluator → Eval α)
    (r : Except Error α) : Prop :=
  ∃ depth, ∀ n, depth ≤ n → ∀ s, b.start s →
    ∃ t, holds t ∧ m (evaluator n) s = (liftM r : Eval α) t

namespace Leads

variable {α β : Type} {b c : Effects} {holds : Store → Prop} {m m' : Evaluator → Eval α}
  {k : Evaluator → α → Eval β} {r : Except Error α}

/-- What settles leads to where it may start again. -/
theorem of_settles (settles : b.Settles m r) : b.Leads b.start m r := by
  obtain ⟨depth, ends⟩ := settles
  refine ⟨depth, fun n deep s start => ?_⟩
  obtain ⟨t, leave, here⟩ := ends n deep s start
  exact ⟨t, b.kept s t start leave, here⟩

/-- What leads on, from where something else has led to. -/
theorem onward {a : α} {r : Except Error β} (first : b.Leads c.start m (.ok a))
    (second : c.Leads holds (fun ev => k ev a) r) :
    b.Leads holds (fun ev => m ev >>= k ev) r := by
  obtain ⟨depth, first⟩ := first
  obtain ⟨depth', second⟩ := second
  refine ⟨max depth depth', fun n deep s start => ?_⟩
  obtain ⟨t, between, here⟩ := first n (by omega) s start
  obtain ⟨u, there, rest⟩ := second n (by omega) t between
  exact ⟨u, there, (Eval.bind_of_eq_ok here _).trans rest⟩

/-- What leads somewhere after something that settles. -/
theorem after_settled {a : α} {r : Except Error β} (first : b.Settles m (.ok a))
    (second : b.Leads holds (fun ev => k ev a) r) :
    b.Leads holds (fun ev => m ev >>= k ev) r :=
  (of_settles first).onward second

/-- What settles within other effects, after something that has led there. -/
theorem bind {a : α} {r : Except Error β} (first : b.Leads c.start m (.ok a))
    (second : c.Settles (fun ev => k ev a) r) :
    b.Leads c.start (fun ev => m ev >>= k ev) r :=
  first.onward (of_settles second)

/-- An error ends the sequence. -/
theorem error_bind {e : Error} (first : b.Leads holds m (.error e)) :
    b.Leads holds (fun ev => m ev >>= k ev) (.error e) := by
  obtain ⟨depth, first⟩ := first
  refine ⟨depth, fun n deep s start => ?_⟩
  obtain ⟨t, there, here⟩ := first n deep s start
  exact ⟨t, there, Eval.bind_of_eq_error here _⟩

theorem bind_all {x : Except Error α} {f : α → Except Error β} (first : b.Leads c.start m x)
    (second : ∀ a, x = .ok a → c.Settles (fun ev => k ev a) (f a)) :
    b.Leads c.start (fun ev => m ev >>= k ev) (x >>= f) := by
  cases x with
  | ok a => exact first.bind (second a rfl)
  | error e => exact first.error_bind

theorem congr (leads : b.Leads holds m r)
    (same : ∀ n s, b.start s → m' (evaluator n) s = m (evaluator n) s) : b.Leads holds m' r := by
  obtain ⟨depth, ends⟩ := leads
  exact ⟨depth, fun n deep s start => (same n s start).symm ▸ ends n deep s start⟩

/-- An evaluation that depends on whether messages are recorded. -/
theorem ite_debug (yes : b.debug = true → b.Leads holds m r)
    (no : b.debug = false → b.Leads holds m' r) :
    b.Leads holds (fun ev => do if (← get).debug then m ev else m' ev) r := by
  have chosen : b.Leads holds (fun ev => if b.debug = true then m ev else m' ev) r := by
    cases debug : b.debug with
    | true => exact yes debug
    | false => exact no debug
  refine chosen.congr fun n s start => ?_
  rw [← b.told s start]
  rfl

/-- The evaluators that an evaluator uses are those of the depth before. -/
theorem deeper (leads : b.Leads holds m r)
    (next : ∀ n, m' (evaluator (n + 1)) = m (evaluator n)) : b.Leads holds m' r := by
  obtain ⟨depth, ends⟩ := leads
  refine ⟨depth + 1, fun n deep s start => ?_⟩
  obtain ⟨n, rfl⟩ : ∃ k, n = k + 1 := ⟨n - 1, by omega⟩
  rw [next]
  exact ends n (by omega) s start

end Leads

/-! ## Uses of a parser -/

/-- Whether a parser comes to the end `r` on an input, from where `b` starts to where `c` does; the
parser can be shown before and after, the input before, should messages be recorded. -/
structure YieldsInto (b c : Effects) (p : Parser) (x : Value)
    (r : Except Error (List Derivation)) : Prop where
  debug : c.debug = b.debug
  shown : b.Shows p.toValue
  shown' : c.Shows p.toValue
  read : b.Shows x
  leads : b.Leads c.start (fun ev => ev.parse p x) r

variable {b c : Effects} {p : Parser} {x : Value} {r : Except Error (List Derivation)}

/-- The messages around a use of a parser change nothing about what it produces. -/
theorem leads_use (debug : c.debug = b.debug) (actual : p.isForeign = false)
    (shown : b.Shows (.parser p)) (shown' : c.Shows (.parser p)) (read : b.Shows x)
    (produced : b.Leads c.start (fun ev => ev.produce p x) r) :
    b.Leads c.start (fun ev => ev.use p x) r := by
  have told (recorded : b.debug = true) : b.Leads c.start (fun ev => do
      ev.logTrying p x
      let found ← ev.produce p x
      ev.logProduced p found.length
      return found) r := by
    have counted (found : List Derivation) : c.Settles (fun ev => do
        ev.logProduced p found.length
        return found) (.ok found) :=
      (settles_logProduced (debug.trans recorded) shown' found.length).bind
        (Settles.lift (.ok found))
    have whole := produced.bind_all fun found _ => counted found
    rw [show r >>= Except.ok = r from bind_pure r] at whole
    exact Leads.after_settled (settles_logTrying recorded shown read) whole
  refine (Leads.ite_debug told fun _ => produced).congr fun n s start => ?_
  rw [Evaluator.use, actual]
  rfl

/-- An error of what is produced comes out of the use. -/
theorem leads_use_error {holds : Store → Prop} {e : Error} (actual : p.isForeign = false)
    (shown : b.Shows (.parser p)) (read : b.Shows x)
    (raised : b.Leads holds (fun ev => ev.produce p x) (.error e)) :
    b.Leads holds (fun ev => ev.use p x) (.error e) := by
  have told (recorded : b.debug = true) : b.Leads holds (fun ev => do
      ev.logTrying p x
      let found ← ev.produce p x
      ev.logProduced p found.length
      return found) (.error e) :=
    .after_settled (settles_logTrying recorded shown read) raised.error_bind
  refine (Leads.ite_debug told fun _ => raised).congr fun n s start => ?_
  rw [Evaluator.use, actual]
  rfl

/-- A parser without a mapping comes to what it processes. -/
theorem YieldsInto.of_process (debug : c.debug = b.debug) (shown : b.Shows p.toValue)
    (shown' : c.Shows p.toValue) (read : b.Shows x) (actual : p.isForeign = false)
    (unmapped : p.mapping = none) (processed : b.Leads c.start (fun ev => ev.process p x) r) :
    b.YieldsInto c p x r := by
  have same : p.toValue = .parser p := by
    obtain ⟨shape, mapping, name⟩ := p
    cases shape with
    | foreign _ => cases actual
    | _ => rfl
  have produced : b.Leads c.start (fun ev => ev.produce p x) r :=
    processed.congr fun _ _ _ => by rw [Evaluator.produce_of_mapping_eq_none unmapped]
  have used := leads_use debug actual (same ▸ shown) (same ▸ shown') read produced
  exact ⟨debug, shown, shown', read, used.deeper fun _ => rfl⟩

/-- Sequencing: the continuation is evaluated after each derivation, in order, from where the parser
has led to. -/
theorem YieldsInto.bind {next : Value} {ds : List Derivation}
    {after : Derivation → Except Error (List Derivation)} (first : b.YieldsInto c p x (.ok ds))
    (continues : ∀ d ∈ ds, c.Settles (fun ev =>
      ev.continuation next d.value d.remainder >>= (ev.parse · d.remainder)) (after d)) :
    b.YieldsInto c (p.bind next (.bool false)) x (List.flatten <$> ds.mapM after) := by
  have composed := Value.shownBy_bind p next (.bool false)
  refine .of_process first.debug (.of_parts composed (List.forall_mem_singleton.mpr first.shown))
    (.of_parts composed (List.forall_mem_singleton.mpr first.shown')) first.read rfl rfl ?_
  refine first.leads.bind ?_
  cases ds with
  | nil => exact Settles.lift (.ok [])
  | cons d ds =>
    have all := settles_continueAll id (d :: ds) continues
    rwa [List.map_id] at all

/-- An error of the parser is one of the sequence. -/
theorem YieldsInto.bind_error {next : Value} {e : Error} (first : b.YieldsInto c p x (.error e)) :
    b.YieldsInto c (p.bind next (.bool false)) x (.error e) := by
  have composed := Value.shownBy_bind p next (.bool false)
  exact .of_process first.debug (.of_parts composed (List.forall_mem_singleton.mpr first.shown))
    (.of_parts composed (List.forall_mem_singleton.mpr first.shown')) first.read rfl rfl
    first.leads.error_bind

/-- While no messages are recorded, every run of a parser that comes to an end leads from the store
that it started from to the one that it has left. -/
theorem yieldsInto_of_parse {s t : Store} {n : Nat} (quiet : s.debug = false)
    (quiet' : t.debug = false)
    (ran : (evaluator n).parse p x s = (liftM r : Eval (List Derivation)) t) :
    (messages s).YieldsInto (messages t) p x r := by
  have ends : ∀ u, (evaluator n).parse p x s ≠ .error .outOfFuel u := by
    intro u stopped
    rw [ran] at stopped
    cases r with
    | ok ds => cases stopped
    | error e => cases stopped
  obtain ⟨depth, lasts⟩ := Evaluator.parse_lasts ends
  refine ⟨quiet'.trans quiet.symm, .of_quiet quiet, .of_quiet quiet', .of_quiet quiet, depth, ?_⟩
  intro m deep s' logs
  obtain rfl := logs.quiet quiet
  exact ⟨t, .refl t, (lasts m deep).trans ran⟩

/-! ## Ends of a parser -/

/-- Whether a parser yields the derivations of `r` on an input or ends with the error of `r`; both
can be shown, should messages be recorded. -/
structure ComesTo (b : Effects) (p : Parser) (x : Value) (r : Except Error (List Derivation)) :
    Prop where
  shown : b.Shows p.toValue
  read : b.Shows x
  yields : ∀ ds, r = .ok ds → b.Yields p x (.ok ds)
  raises : ∀ e, r = .error e → b.Leads (fun _ => True) (fun ev => ev.parse p x) (.error e)

/-- What ends as `r` from some depth on comes to `r`. -/
theorem ComesTo.of_ends (shown : b.Shows p.toValue) (read : b.Shows x)
    (ends : ∃ depth, ∀ n, depth ≤ n → ∀ s, b.start s →
      ∃ t, b.leave s t ∧ ((evaluator n).parse p x).EndsAs r s t) : b.ComesTo p x r := by
  refine ⟨shown, read, fun ds same => ?_, fun e same => ?_⟩
  · subst same
    exact ⟨shown, read, ends⟩
  · subst same
    obtain ⟨depth, ends⟩ := ends
    refine ⟨depth, fun n deep s start => ?_⟩
    obtain ⟨-, -, u, raised⟩ := ends n deep s start
    exact ⟨u, trivial, raised⟩

/-- An error of the first parser is one of the choice. -/
theorem leads_orElse_error {v : Value} {holds : Store → Prop} {e : Error}
    (shown : b.Shows (p.orElse [v]).toValue) (read : b.Shows x)
    (raised : b.Leads holds (fun ev => ev.parse p x) (.error e)) :
    b.Leads holds (fun ev => ev.parse (p.orElse [v]) x) (.error e) := by
  have processed : b.Leads holds (fun ev => ev.process (p.orElse [v]) x) (.error e) :=
    raised.error_bind
  have produced : b.Leads holds (fun ev => ev.produce (p.orElse [v]) x) (.error e) :=
    processed.error_bind
  exact (leads_use_error rfl shown read produced).deeper fun _ => rfl

/-- With a plain value to fall back on, a parser that yields nothing comes to that value. -/
theorem ComesTo.orElse {v : Value} (plain : v.IsPlain) (shown : b.Shows v)
    (first : b.ComesTo p x r) :
    b.ComesTo (p.orElse [v]) x (r >>= fun ds => .ok (if ds = [] then [⟨v, x⟩] else ds)) := by
  have whole := shows_orElse first.shown (yields_asParser plain shown first.read).shown
  cases r with
  | ok ds =>
    refine ⟨whole, first.read, fun es same => ?_, by nofun⟩
    cases same
    exact yields_orElse_value plain shown (first.yields ds rfl)
  | error e =>
    refine ⟨whole, first.read, by nofun, fun e' same => ?_⟩
    cases same
    exact leads_orElse_error whole first.read (first.raises e rfl)

end GrammarKit.Effects
