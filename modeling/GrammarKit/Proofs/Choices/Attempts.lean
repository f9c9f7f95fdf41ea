import GrammarKit.Proofs.Comparison.Frame
import GrammarKit.Proofs.Effects.Leads

/-! # Attempts in turn

An ordered choice makes attempts at its alternatives from left to right, up to the first one that
does not fail. An attempt may have effects, which the next one starts from. `InTurn` threads them
through, so it also tells that nothing is tried twice, or after what has decided.
-/

namespace GrammarKit

section

variable {ι κ σ τ : Type}

/-- Whether attempts at all of several things fail, one after the other; `between` is what may come
before, after and in between. -/
inductive AllFail (between : σ → σ → Prop)
    (attempt : ι → σ → Except Error (List Derivation) → σ → Prop) : List ι → σ → σ → Prop where
  | nil {s t : σ} : between s t → AllFail between attempt [] s t
  | cons {i : ι} {is : List ι} {s t u v : σ} : between s t → attempt i t (.ok []) u →
    AllFail between attempt is u v → AllFail between attempt (i :: is) s v

/-- Whether attempts at several things, from left to right, come to an end: either all of them fail,
or one comes to another end after those before it have failed, and no more attempts are made. -/
inductive InTurn (between : σ → σ → Prop)
    (attempt : ι → σ → Except Error (List Derivation) → σ → Prop) :
    List ι → σ → Except Error (List Derivation) → σ → Prop where
  | failed {is : List ι} {s t : σ} : AllFail between attempt is s t →
    InTurn between attempt is s (.ok []) t
  | decided {before after : List ι} {i : ι} {r : Except Error (List Derivation)} {s t u v : σ} :
    AllFail between attempt before s t → attempt i t r u → r ≠ .ok [] → between u v →
      InTurn between attempt (before ++ i :: after) s r v

variable {between : σ → σ → Prop} {between' : τ → τ → Prop}
  {attempt : ι → σ → Except Error (List Derivation) → σ → Prop}
  {attempt' : ι → τ → Except Error (List Derivation) → τ → Prop}
  {i : ι} {is js : List ι} {r : Except Error (List Derivation)} {s t u v : σ}

theorem inTurn_nil_iff : InTurn between attempt [] s r t ↔ r = .ok [] ∧ between s t := by
  constructor
  · intro turn
    generalize none : ([] : List ι) = is at turn
    cases turn with
    | failed fail =>
      subst none
      cases fail with
      | nil there => exact ⟨rfl, there⟩
    | decided => simp at none
  · rintro ⟨rfl, there⟩
    exact .failed (.nil there)

theorem InTurn.first (before : between s t) (here : attempt i t r u) (decides : r ≠ .ok [])
    (after : between u v) : InTurn between attempt (i :: is) s r v := by
  have none : AllFail between attempt [] s t := .nil before
  exact .decided none here decides after

theorem InTurn.next (before : between s t) (here : attempt i t (.ok []) u)
    (others : InTurn between attempt is u r v) : InTurn between attempt (i :: is) s r v := by
  cases others with
  | failed fail => exact .failed (.cons before here fail)
  | decided fail there decides after =>
    have longer := AllFail.cons before here fail
    exact .decided longer there decides after

/-- The first attempt decides, or else it fails and the others follow. -/
theorem inTurn_cons_iff : InTurn between attempt (i :: is) s r v ↔
    ∃ t u, between s t ∧ ((r ≠ .ok [] ∧ attempt i t r u ∧ between u v) ∨
      (attempt i t (.ok []) u ∧ InTurn between attempt is u r v)) := by
  constructor
  · intro turn
    generalize all : i :: is = js at turn
    cases turn with
    | failed fail =>
      subst all
      cases fail with
      | cons before here fail => exact ⟨_, _, before, .inr ⟨here, .failed fail⟩⟩
    | @decided first after j r s t u v fail there decides last =>
      cases fail with
      | nil before =>
        cases all
        exact ⟨_, _, before, .inl ⟨decides, there, last⟩⟩
      | cons before here fail =>
        cases all
        exact ⟨_, _, before, .inr ⟨here, .decided fail there decides last⟩⟩
  · rintro ⟨t, u, before, ⟨decides, here, after⟩ | ⟨here, others⟩⟩
    · exact .first before here decides after
    · exact .next before here others

theorem inTurn_failed_iff :
    InTurn between attempt is s (.ok []) t ↔ AllFail between attempt is s t := by
  constructor
  · intro turn
    generalize failed : (Except.ok [] : Except Error (List Derivation)) = r at turn
    cases turn with
    | failed fail => exact fail
    | decided _ _ decides => exact absurd failed.symm decides
  · exact .failed

theorem inTurn_map_iff {f : κ → ι} {ks : List κ} : InTurn between attempt (ks.map f) s r t ↔
    InTurn between (fun k => attempt (f k)) ks s r t := by
  induction ks generalizing s with
  | nil => simp only [List.map_nil, inTurn_nil_iff]
  | cons k ks ih => simp only [List.map_cons, inTurn_cons_iff, ih]

/-- What holds before attempts, and is kept by each of them, holds afterwards. -/
theorem InTurn.preserves {I : σ → Prop} (onward : ∀ s t, I s → between s t → I t)
    (each : ∀ i ∈ is, ∀ s r t, I s → attempt i s r t → I t) (start : I s)
    (turn : InTurn between attempt is s r t) : I t := by
  induction is generalizing s with
  | nil => exact onward s t start (inTurn_nil_iff.mp turn).2
  | cons i is ih =>
    obtain ⟨here, others⟩ := List.forall_mem_cons.mp each
    obtain ⟨s', u, before, turn⟩ := inTurn_cons_iff.mp turn
    have start' := onward s s' start before
    rcases turn with ⟨-, attempted, after⟩ | ⟨attempted, rest⟩
    · exact onward u t (here s' r u start' attempted) after
    · exact ih others (here s' _ u start' attempted) rest

/-- Attempts in another setting. Before the last one all of them fail. -/
theorem InTurn.transport {I : σ → Prop} (φ : σ → τ)
    (onward : ∀ s t, I s → between s t → I t ∧ between' (φ s) (φ t))
    (each : ∀ i ∈ is, ∀ s r' t, r' = .ok [] ∨ r' = r → I s → attempt i s r' t →
      I t ∧ attempt' i (φ s) r' (φ t))
    (start : I s) (turn : InTurn between attempt is s r t) :
    InTurn between' attempt' is (φ s) r (φ t) := by
  induction is generalizing s with
  | nil =>
    obtain ⟨failed, there⟩ := inTurn_nil_iff.mp turn
    exact inTurn_nil_iff.mpr ⟨failed, (onward s t start there).2⟩
  | cons i is ih =>
    obtain ⟨here, others⟩ := List.forall_mem_cons.mp each
    obtain ⟨s', u, before, turn⟩ := inTurn_cons_iff.mp turn
    obtain ⟨start', before'⟩ := onward s s' start before
    rcases turn with ⟨decides, attempted, after⟩ | ⟨attempted, rest⟩
    · obtain ⟨start'', attempted'⟩ := here s' r u (.inr rfl) start' attempted
      exact .first before' attempted' decides (onward u t start'' after).2
    · obtain ⟨start'', attempted'⟩ := here s' _ u (.inl rfl) start' attempted
      exact .next before' attempted' (ih others start'' rest)

theorem InTurn.singleton (here : attempt i s r t) (refl : ∀ s, between s s) :
    InTurn between attempt [i] s r t := by
  by_cases failed : r = .ok []
  · subst failed
    exact .next (refl s) here (.failed (.nil (refl t)))
  · exact .first (refl s) here failed (refl t)

theorem InTurn.later (before : between s t) (turn : InTurn between attempt is t r u)
    (trans : ∀ {s t u}, between s t → between t u → between s u) :
    InTurn between attempt is s r u := by
  cases is with
  | nil =>
    obtain ⟨failed, there⟩ := inTurn_nil_iff.mp turn
    exact inTurn_nil_iff.mpr ⟨failed, trans before there⟩
  | cons i is =>
    obtain ⟨t', u', before', turn⟩ := inTurn_cons_iff.mp turn
    exact inTurn_cons_iff.mpr ⟨t', u', trans before before', turn⟩

theorem InTurn.sooner (turn : InTurn between attempt is s r t) (after : between t u)
    (trans : ∀ {s t u}, between s t → between t u → between s u) :
    InTurn between attempt is s r u := by
  induction is generalizing s with
  | nil =>
    obtain ⟨failed, there⟩ := inTurn_nil_iff.mp turn
    exact inTurn_nil_iff.mpr ⟨failed, trans there after⟩
  | cons i is ih =>
    obtain ⟨s', u', before, ⟨decides, here, last⟩ | ⟨here, others⟩⟩ := inTurn_cons_iff.mp turn
    · exact .first before here decides (trans last after)
    · exact .next before here (ih others)

/-- Of attempts at two lists of things, those at the second one come after the first one fails. -/
theorem inTurn_append_iff (refl : ∀ s, between s s)
    (trans : ∀ {s t u}, between s t → between t u → between s u) :
    InTurn between attempt (is ++ js) s r u ↔
      (r ≠ .ok [] ∧ InTurn between attempt is s r u) ∨
        ∃ t, InTurn between attempt is s (.ok []) t ∧ InTurn between attempt js t r u := by
  induction is generalizing s with
  | nil =>
    rw [List.nil_append]
    constructor
    · exact fun turn => .inr ⟨s, inTurn_nil_iff.mpr ⟨rfl, refl s⟩, turn⟩
    · rintro (⟨decides, none⟩ | ⟨t, none, turn⟩)
      · exact absurd (inTurn_nil_iff.mp none).1 decides
      · exact .later (inTurn_nil_iff.mp none).2 turn trans
  | cons i is ih =>
    rw [List.cons_append, inTurn_cons_iff]
    constructor
    · rintro ⟨s', t, before, ⟨decides, here, after⟩ | ⟨here, others⟩⟩
      · exact .inl ⟨decides, .first before here decides after⟩
      · rcases ih.mp others with ⟨decides, rest⟩ | ⟨t', rest, last⟩
        · exact .inl ⟨decides, .next before here rest⟩
        · exact .inr ⟨t', .next before here rest, last⟩
    · rintro (⟨decides, turn⟩ | ⟨t', turn, last⟩)
      · obtain ⟨s', t, before, ⟨-, here, after⟩ | ⟨here, others⟩⟩ := inTurn_cons_iff.mp turn
        · exact ⟨s', t, before, .inl ⟨decides, here, after⟩⟩
        · exact ⟨s', t, before, .inr ⟨here, ih.mpr (.inl ⟨decides, others⟩)⟩⟩
      · obtain ⟨s', t, before, ⟨none, -⟩ | ⟨here, others⟩⟩ := inTurn_cons_iff.mp turn
        · exact absurd rfl none
        · exact ⟨s', t, before, .inr ⟨here, ih.mpr (.inr ⟨t', others, last⟩)⟩⟩

end

/-! ## Runs -/

open Eval (bind_eq_ok_iff bind_of_eq_ok bind_of_eq_error)

/-- Whether a run of a parser, started in one store, comes to an end in another one. -/
def Parser.Ends (p : Parser) (x : Value) (s : Store) (r : Except Error (List Derivation))
    (t : Store) : Prop :=
  ∃ n, (evaluator n).parse p x s = (liftM r : Eval (List Derivation)) t

section

variable {p : Parser} {ps : List Parser} {x v : Value} {s t : Store}
  {r : Except Error (List Derivation)}

namespace Parser.Ends

theorem debug (ends : p.Ends x s r t) : t.debug = s.debug := by
  obtain ⟨n, ran⟩ := ends
  have kept := Evaluator.debug_parse n p x s
  rw [ran] at kept
  cases r <;> exact kept

/-- While no messages are recorded, a run leads from one store to another one. -/
theorem yieldsInto (quiet : s.debug = false) (ends : p.Ends x s r t) :
    (Effects.messages s).YieldsInto (Effects.messages t) p x r := by
  obtain ⟨n, ran⟩ := ends
  exact Effects.yieldsInto_of_parse quiet (Ends.debug ⟨n, ran⟩ |>.trans quiet) ran

theorem of_yieldsInto (quiet : t.debug = false)
    (leads : (Effects.messages s).YieldsInto (Effects.messages t) p x r) : p.Ends x s r t := by
  obtain ⟨depth, ends⟩ := leads.leads
  obtain ⟨u, there, ran⟩ := ends depth (Nat.le_refl depth) s (.refl s)
  obtain rfl := there.quiet quiet
  exact ⟨depth, ran⟩

theorem of_yields (quiet : s.debug = false) (yields : (Effects.messages s).Yields p x r) :
    p.Ends x s r s := by
  obtain ⟨depth, ends⟩ := yields.settles
  obtain ⟨t, logs, ran⟩ := ends depth (Nat.le_refl depth) s (.refl s)
  obtain rfl := logs.quiet quiet
  exact ⟨depth, ran⟩

/-- There is one end of a run at most. -/
theorem unique {r' : Except Error (List Derivation)} {t' : Store} (ends : p.Ends x s r t)
    (ends' : p.Ends x s r' t') : r = r' ∧ t = t' := by
  have lasting {r : Except Error (List Derivation)} {t : Store} (ends : p.Ends x s r t) :
      Deep fun m => (evaluator m).parse p x s = (liftM r : Eval (List Derivation)) t := by
    obtain ⟨n, ran⟩ := ends
    refine (Evaluator.parse_lasts (n := n) fun u out => ?_).mono fun m same => same.trans ran
    rw [ran] at out
    cases r <;> cases out
  obtain ⟨depth, both⟩ := (lasting ends).both (lasting ends') fun m here there =>
    here.symm.trans there
  have same := both depth (Nat.le_refl depth)
  cases r <;> cases r' <;> cases same <;> exact ⟨rfl, rfl⟩

/-- The messages around a use come before and after what is processed. While messages are recorded,
that is told of derivations only, since it may be an error if a parser cannot be shown. -/
theorem exists_process (actual : p.isForeign = false) (unmapped : p.mapping = none)
    (told : s.debug = true → ∃ ds, r = .ok ds) (ends : p.Ends x s r t) :
    ∃ n s' t', s.Logs s' ∧
      (evaluator n).process p x s' = (liftM r : Eval (List Derivation)) t' ∧ t'.Logs t := by
  have kept := ends.debug
  obtain ⟨n, ran⟩ := ends
  cases n with
  | zero => cases r <;> cases ran
  | succ n =>
    change (evaluator n).use p x s = _ at ran
    cases debug : s.debug with
    | false =>
      have read : (get : Eval Store) s = .ok s s := rfl
      rw [Evaluator.use, if_neg (by simp [actual]), bind_of_eq_ok read, debug,
        Evaluator.produce_of_mapping_eq_none unmapped] at ran
      exact ⟨n, s, t, .refl s, ran, .refl t⟩
    | true =>
      obtain ⟨ds, rfl⟩ := told debug
      obtain ⟨s', t', announces, processed, reports⟩ :=
        (Evaluator.use_eq_ok_iff actual unmapped).mp ran
      refine ⟨n, s', t', ⟨announces.traced, fun quiet => ?_⟩, processed, reports.traced,
        fun quiet => ?_⟩
      · cases quiet.symm.trans debug
      · obtain ⟨trace, rfl⟩ := reports.traced
        cases quiet.symm.trans (kept.trans debug)

end Parser.Ends

/-! ## Choices -/

/-- The alternatives of a choice are tried in turn. -/
theorem Evaluator.inTurn_of_firstOf {n : Nat}
    (ran : (evaluator n).firstOf x ps s = (liftM r : Eval (List Derivation)) t) :
    InTurn Store.Logs (fun p => p.Ends x) ps s r t := by
  induction ps generalizing s with
  | nil =>
    cases r with
    | error e => cases ran
    | ok ds =>
      cases ran
      exact inTurn_nil_iff.mpr ⟨rfl, .refl _⟩
  | cons p ps ih =>
    rw [firstOf] at ran
    cases found : (evaluator n).parse p x s with
    | error stop u =>
      rw [bind_of_eq_error found] at ran
      cases r with
      | ok ds => cases ran
      | error e =>
        cases ran
        exact .first (.refl s) ⟨n, found⟩ (by nofun) (.refl t)
    | ok ds u =>
      rw [bind_of_eq_ok found] at ran
      cases ds with
      | nil => exact .next (.refl _) ⟨n, found⟩ (ih ran)
      | cons d ds =>
        cases r with
        | error e => cases ran
        | ok es =>
          cases ran
          exact .first (.refl _) ⟨n, found⟩ (by nofun) (.refl t)

/-- What a choice comes to where its alternatives are tried in turn. -/
theorem Effects.leads_firstOf {b c : Effects}
    (turn : InTurn Eq (fun p b r c => b.YieldsInto c p x r) ps b r c) :
    b.Leads c.start (fun ev => ev.firstOf x ps) r := by
  induction ps generalizing b with
  | nil =>
    obtain ⟨rfl, rfl⟩ := inTurn_nil_iff.mp turn
    exact .of_settles (Settles.lift (.ok []))
  | cons p ps ih =>
    obtain ⟨_, u, rfl, ⟨decides, here, rfl⟩ | ⟨here, others⟩⟩ := inTurn_cons_iff.mp turn
    · cases r with
      | error e => exact here.leads.error_bind
      | ok ds =>
        cases ds with
        | nil => exact absurd rfl decides
        | cons d ds => exact here.leads.bind (Settles.lift (.ok (d :: ds)))
    · exact here.leads.onward (ih others)

end

/-- Whether to run a parser is to make attempts at several things in turn. That messages are
recorded adds these in between, and asks that what they are about can be shown. -/
structure Parser.TriesInTurn {ι : Type} (p : Parser) (x : Value) (is : List ι)
    (run : ι → Store → Except Error (List Derivation) → Store → Prop)
    (lead : ι → Effects → Except Error (List Derivation) → Effects → Prop)
    (shown : List Value) : Prop where
  tries : ∀ {s t : Store} {r : Except Error (List Derivation)},
    (s.debug = true → ∃ ds, r = .ok ds) → p.Ends x s r t → InTurn Store.Logs run is s r t
  ends : ∀ {s t : Store} {r : Except Error (List Derivation)}, s.debug = false →
    InTurn Store.Logs run is s r t → p.Ends x s r t
  leads : ∀ {b c : Effects} {r : Except Error (List Derivation)}, (∀ v ∈ shown, b.Shows v) →
    InTurn Eq (fun i b r c => lead i b r c ∧ ∀ v ∈ shown, c.Shows v) is b r c →
      b.YieldsInto c p x r

namespace Parser.TriesInTurn

variable {ι : Type} {p : Parser} {x : Value} {is : List ι} {s t : Store}
  {run : ι → Store → Except Error (List Derivation) → Store → Prop}
  {lead : ι → Effects → Except Error (List Derivation) → Effects → Prop} {shown : List Value}
  {r : Except Error (List Derivation)}

theorem ends_iff (turns : p.TriesInTurn x is run lead shown) (quiet : s.debug = false) :
    p.Ends x s r t ↔ InTurn Store.Logs run is s r t :=
  ⟨turns.tries (fun loud => nomatch quiet.symm.trans loud), turns.ends quiet⟩

/-- Attempts from stores are attempts that lead from effects to others, while no messages are
recorded. -/
theorem of_leads (each : ∀ i s r t, s.debug = false → run i s r t →
      t.debug = false ∧ lead i (.messages s) r (.messages t))
    (tries : ∀ {s t : Store} {r : Except Error (List Derivation)},
      (s.debug = true → ∃ ds, r = .ok ds) → p.Ends x s r t → InTurn Store.Logs run is s r t)
    (leads : ∀ {b c : Effects} {r : Except Error (List Derivation)}, (∀ v ∈ shown, b.Shows v) →
      InTurn Eq (fun i b r c => lead i b r c ∧ ∀ v ∈ shown, c.Shows v) is b r c →
        b.YieldsInto c p x r) : p.TriesInTurn x is run lead shown where
  tries := tries
  leads := leads
  ends {s t r} quiet turn := by
    have onward (s t : Store) (quiet : s.debug = false) (logs : s.Logs t) :
        t.debug = false ∧ Effects.messages s = Effects.messages t := by
      obtain rfl := logs.quiet quiet
      exact ⟨quiet, rfl⟩
    have quiet' : t.debug = false := turn.preserves (I := fun s => s.debug = false)
      (fun s t quiet logs => (onward s t quiet logs).1)
      (fun i _ s r t quiet here => (each i s r t quiet here).1) quiet
    have turn' : InTurn Eq (fun i b r c => lead i b r c ∧ ∀ v ∈ shown, c.Shows v) is
        (.messages s) r (.messages t) :=
      turn.transport (I := fun s => s.debug = false) Effects.messages onward
        (fun i _ s r t _ quiet here =>
          have ⟨still, there⟩ := each i s r t quiet here
          ⟨still, there, fun _ _ => .of_quiet still⟩) quiet
    exact .of_yieldsInto quiet' (leads (fun _ _ => .of_quiet quiet) turn')

end Parser.TriesInTurn

end GrammarKit
