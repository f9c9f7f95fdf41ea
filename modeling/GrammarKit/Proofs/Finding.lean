import GrammarKit.Proofs.Comparison.Deeper
import GrammarKit.Proofs.DepthFirst
import GrammarKit.Proofs.Effects.Yields
import GrammarKit.Proofs.Hereditary

/-! # What a parser may find

Seen from its end, a parse that has found a derivation tells where that has come from: a sequence
has found it after a derivation of its first parser, a choice with one of its alternatives, and a
repetition at the end of a path. That holds of whatever run, also of one that others have come
before, so a derivation is one that is found from some store on.
-/

namespace GrammarKit

open Eval

/-- Whether a store may follow another one in the course of a parse, after parses, calls and
messages. -/
inductive Store.Later (s : Store) : Store → Prop where
  | refl : s.Later s
  | parse {t u : Store} {n : Nat} {p : Parser} {x : Value} {ds : List Derivation}
      (later : s.Later t) (ran : (evaluator n).parse p x t = .ok ds u) : s.Later u
  | call {t u : Store} {n : Nat} {f w : Value} {arguments : List Value}
      (later : s.Later t) (ran : (evaluator n).call f arguments t = .ok w u) : s.Later u
  | record {t : Store} (later : s.Later t) (trace : Array Answer) :
      s.Later { t with trace := trace }

/-- Whether some run of a parser on an input, from a store on, has a derivation. -/
def Parser.FindsFrom (s : Store) (p : Parser) (x : Value) (d : Derivation) : Prop :=
  ∃ n t u ds, s.Later t ∧ (evaluator n).parse p x t = .ok ds u ∧ d ∈ ds

/-- Whether some call of a function, from a store on, has a value. -/
def Value.ReturnsFrom (s : Store) (f : Value) (arguments : List Value) (w : Value) : Prop :=
  ∃ n t u, s.Later t ∧ (evaluator n).call f arguments t = .ok w u

variable {s : Store} {p q : Parser} {ps : List Parser} {f v w x rest : Value} {d : Derivation}
  {name : Option Value}

theorem Store.Later.quiet (s : Store) : Store.Quiet s.Later := fun _ trace later =>
  later.record trace

/-! ## Calls -/

namespace Value.ReturnsFrom

/-- What a step returns is what it may come to. -/
theorem of_step {f : Callback} {Q : Value → Prop}
    (returns : (Value.function f).ReturnsFrom s [v] w)
    (step : ∀ ev : Evaluator, Maintains (fun _ => True) (ev.applyCallback f [v]) Q) : Q w := by
  obtain ⟨n, t, u, -, ran⟩ := returns
  cases n with
  | zero => cases ran
  | succ n => exact (step (evaluator n) t w u trivial ran).2

/-- A function that has a value in every store, from some depth on, returns no other one. -/
theorem eq_of_deep {arguments : List Value} (returns : f.ReturnsFrom s arguments w)
    (depth : Nat) (gives : ∀ n t, (evaluator (n + depth)).call f arguments t = .ok v t) :
    w = v := by
  obtain ⟨n, t, u, -, ran⟩ := returns
  have ended : ∀ u, (evaluator n).call f arguments t ≠ .error .outOfFuel u := fun u out => by
    rw [ran] at out
    cases out
  obtain ⟨depth', lasts⟩ := Evaluator.call_lasts ended
  have same := (gives depth' t).symm.trans (lasts (depth' + depth) (Nat.le_add_right ..))
  rw [ran] at same
  cases same
  rfl

end Value.ReturnsFrom

/-- The continuation is what the callback has returned, taken as a parser. -/
theorem maintains_continuation (callable : f.isCallable = true) (n : Nat) :
    Maintains s.Later ((evaluator n).continuation f v rest) fun q =>
      ∃ w, f.ReturnsFrom s (f.received v rest) w ∧ q = Parser.asParser w := by
  rw [Evaluator.continuation, if_pos callable]
  have called : Maintains s.Later ((evaluator n).call f (f.received v rest)) fun w =>
      f.ReturnsFrom s (f.received v rest) w := fun t w u later ran =>
    ⟨later.call ran, n, t, u, later, ran⟩
  exact called.bind fun w returned => .pure ⟨w, returned, rfl⟩

/-! ## Parses -/

theorem maintains_parse (n : Nat) (p : Parser) (x : Value) :
    Maintains s.Later ((evaluator n).parse p x) fun ds => ∀ d ∈ ds, p.FindsFrom s x d :=
  fun t ds u later ran =>
    ⟨later.parse ran, fun _ member => ⟨n, t, u, ds, later, ran, member⟩⟩

namespace Parser.FindsFrom

variable {P : Derivation → Prop}

/-- What a parser finds without a mapping is what it processes, whatever messages there are. -/
theorem of_process (finds : p.FindsFrom s x d) (unmapped : p.mapping = none)
    (processes : ∀ n,
      Maintains s.Later ((evaluator n).process p x) fun ds => ∀ d ∈ ds, P d) : P d := by
  obtain ⟨n, t, u, ds, later, ran, member⟩ := finds
  cases n with
  | zero => cases ran
  | succ n =>
    have produces : Maintains s.Later ((evaluator n).produce p x) fun ds => ∀ d ∈ ds, P d := by
      rw [Evaluator.produce_of_mapping_eq_none unmapped]
      exact processes n
    exact (Evaluator.maintains_use (.quiet s) produces t ds u later ran).2 d member

/-- A value that stands for itself is what is found for it. -/
theorem eq_of_isPlain (plain : v.IsPlain) (finds : (Parser.asParser v).FindsFrom s x d) :
    d = ⟨v, x⟩ := by
  have unmapped : (Parser.asParser v).mapping = none := by
    cases v with
    | parser _ | missing => exact plain.elim
    | _ => rfl
  refine finds.of_process (P := fun d => d = ⟨v, x⟩) unmapped fun n => ?_
  cases v with
  | parser _ | missing => exact plain.elim
  | _ => exact .pure (List.forall_mem_singleton.mpr rfl)

/-- What is found in a sequence is found after a derivation of the first parser, or, should there be
none, after the default one, if that is asked for. -/
theorem of_bind_always {always : Value} (callable : f.isCallable = true)
    (finds : (node (.bind p f always) none name).FindsFrom s x d) :
    (∃ e w, p.FindsFrom s x e ∧ f.ReturnsFrom s (f.received e.value e.remainder) w ∧
      (Parser.asParser w).FindsFrom s e.remainder d) ∨
    ((∃ results, always.truth results = true) ∧ ∃ w, f.ReturnsFrom s (f.received (.text []) x) w ∧
      (Parser.asParser w).FindsFrom s x d) := by
  refine finds.of_process (P := fun d => (∃ e w, p.FindsFrom s x e ∧
    f.ReturnsFrom s (f.received e.value e.remainder) w ∧
      (Parser.asParser w).FindsFrom s e.remainder d) ∨
    ((∃ results, always.truth results = true) ∧ ∃ w, f.ReturnsFrom s (f.received (.text []) x) w ∧
      (Parser.asParser w).FindsFrom s x d)) rfl fun n => ?_
  have continued (found : List Derivation) (all : ∀ e ∈ found, p.FindsFrom s x e) :
      Maintains s.Later ((evaluator n).continueAll f found) fun ds => ∀ d ∈ ds,
        ∃ e w, p.FindsFrom s x e ∧ f.ReturnsFrom s (f.received e.value e.remainder) w ∧
          (Parser.asParser w).FindsFrom s e.remainder d := by
    induction found with
    | nil => exact .pure (List.forall_mem_nil _)
    | cons e found ih =>
      obtain ⟨first, others⟩ := List.forall_mem_cons.mp all
      refine (maintains_continuation callable n).bind ?_
      rintro _ ⟨w, returned, rfl⟩
      refine (maintains_parse n _ e.remainder).bind fun here founds => ?_
      refine (ih others).bind fun later founds' => .pure fun d member => ?_
      rcases List.mem_append.mp member with inside | inside
      · exact ⟨e, w, first, returned, founds d inside⟩
      · exact founds' d inside
  have decided : Maintains s.Later (Evaluator.truth always) fun h =>
      h = true → ∃ results, always.truth results = true :=
    Maintains.readResults.bind fun results _ => .pure fun holds => ⟨results, holds⟩
  have default_ (anyway : ∃ results, always.truth results = true) :
      Maintains s.Later ((evaluator n).continuation f (.text []) x >>= fun q =>
        (evaluator n).parse q x) fun ds => ∀ d ∈ ds,
          (∃ results, always.truth results = true) ∧
            ∃ w, f.ReturnsFrom s (f.received (.text []) x) w ∧
              (Parser.asParser w).FindsFrom s x d := by
    refine (maintains_continuation callable n).bind ?_
    rintro _ ⟨w, returned, rfl⟩
    exact (maintains_parse n _ x).mono fun ds found d member =>
      ⟨anyway, w, returned, found d member⟩
  refine (maintains_parse n p x).bind fun found all => .ite (fun _ => ?_) fun _ => ?_
  · refine decided.bind fun h holds => .ite (fun anyway => ?_) fun _ =>
      .pure (List.forall_mem_nil _)
    exact (default_ (holds anyway)).mono fun ds found d member => .inr (found d member)
  · exact (continued found all).mono fun ds found d member => .inl (found d member)

theorem of_bind (callable : f.isCallable = true)
    (finds : (node (.bind p f (.bool false)) none name).FindsFrom s x d) :
    ∃ e w, p.FindsFrom s x e ∧ f.ReturnsFrom s (f.received e.value e.remainder) w ∧
      (Parser.asParser w).FindsFrom s e.remainder d :=
  (finds.of_bind_always callable).resolve_right fun ⟨⟨_, holds⟩, _⟩ => nomatch holds

end Parser.FindsFrom

theorem Parser.not_findsFrom_zero : ¬ Parser.zero.FindsFrom s x d := by
  intro finds
  exact finds.of_process (P := fun _ => False) rfl fun n => .pure (List.forall_mem_nil _)

theorem maintains_firstOf (n : Nat) (ps : List Parser) (x : Value) :
    Maintains s.Later ((evaluator n).firstOf x ps) fun ds =>
      ∀ d ∈ ds, ∃ p ∈ ps, p.FindsFrom s x d := by
  induction ps with
  | nil => exact .pure (List.forall_mem_nil _)
  | cons p ps ih =>
    refine (maintains_parse n p x).bind fun found all => .ite (fun _ => ?_) fun _ => .pure ?_
    · refine ih.mono fun ds found d member => ?_
      obtain ⟨q, inside, finds⟩ := found d member
      exact ⟨q, List.mem_cons_of_mem _ inside, finds⟩
    · exact fun d member => ⟨p, List.mem_cons_self, all d member⟩

/-- What a choice finds, one of its alternatives does. -/
theorem Parser.FindsFrom.of_choice (finds : (node (.choice ps) none name).FindsFrom s x d) :
    ∃ p ∈ ps, p.FindsFrom s x d :=
  finds.of_process (P := fun d => ∃ p ∈ ps, p.FindsFrom s x d) rfl fun n =>
    maintains_firstOf n ps x

/-! ## Repetitions -/

/-- What holds of the paths of an exploration, step by step, holds of the derivations that they
end with. -/
theorem maintains_explore {I : Store → Prop} {step : Value → Eval (List Derivation)}
    {finish : List Value → Except Error Value} {K : List Value → Value → Prop}
    {O : Derivation → Prop}
    (steps : ∀ values rest, K values rest → Maintains I (step rest) fun ds =>
      ∀ d ∈ ds, K (d.value :: values) d.remainder)
    (finishes : ∀ values rest v, K values rest → finish values.reverse = .ok v → O ⟨v, rest⟩)
    (budget : Nat) (agenda : List Path) (out : List Derivation)
    (waiting : ∀ path ∈ agenda, K path.values path.remainder) (ended : ∀ d ∈ out, O d) :
    Maintains I (explore step finish budget agenda out) fun ds => ∀ d ∈ ds, O d := by
  have finished (path : Path) (holds : K path.values path.remainder) :
      Maintains I (liftM (finish path.values.reverse) : Eval Value) fun v =>
        O ⟨v, path.remainder⟩ :=
    .lift fun v finished => finishes path.values path.remainder v holds finished
  induction budget, agenda, out using explore.induct with
  | case1 budget out =>
    rw [explore]
    exact .pure fun d member => ended d (List.mem_reverse.mp member)
  | case2 budget out path rest zero ih =>
    obtain ⟨here, others⟩ := List.forall_mem_cons.mp waiting
    rw [explore_ended _ _ _ zero]
    exact (finished path here).bind fun v last =>
      ih v others (List.forall_mem_cons.mpr ⟨last, ended⟩)
  | case3 budget out path rest opened dropped stopped replaced spent =>
    obtain ⟨here, others⟩ := List.forall_mem_cons.mp waiting
    rw [explore, if_neg opened]
    refine (steps path.values path.remainder here).bind fun found all => ?_
    refine .ite (fun _ => .ite (fun _ => dropped others ended) fun _ => ?_) fun _ => ?_
    · exact (finished path here).bind fun v last =>
        stopped v others (List.forall_mem_cons.mpr ⟨last, ended⟩)
    · refine Maintains.readResults.bind fun results _ => ?_
      refine (Maintains.lift fun _ extended => Path.exists_of_mem_extendAll _ extended).bind ?_
      rintro longer ⟨-, each⟩
      have further : ∀ path ∈ longer ++ rest, K path.values path.remainder := by
        refine List.forall_mem_append.mpr ⟨fun next member => ?_, others⟩
        obtain ⟨d, inside, values, remainder⟩ := each next member
        rw [values, remainder]
        exact all d inside
      split
      · next low => exact replaced longer low further ended
      · cases budget with
        | zero => exact .throw _
        | succ budget => exact spent longer further ended

/-- What holds of the values of a path and what it leaves, step by step, holds of what is found by a
repetition. -/
theorem Parser.FindsFrom.of_many {accumulate : Value} {K : List Value → Value → Prop}
    {O : Derivation → Prop} (finds : (node (.many p accumulate) none name).FindsFrom s x d)
    (start : K [] x)
    (steps : ∀ values rest d, K values rest → p.FindsFrom s rest d →
      K (values ++ [d.value]) d.remainder)
    (finishes : ∀ values rest v, K values rest → accumulateValues accumulate values = .ok v →
      O ⟨v, rest⟩) : O d := by
  refine finds.of_process (P := O) rfl fun n => Maintains.readResults.bind fun results _ => ?_
  refine maintains_explore (K := fun values rest => K values.reverse rest) ?_ ?_ _ _ []
    (List.forall_mem_singleton.mpr start) (List.forall_mem_nil _)
  · intro values rest holds
    refine (maintains_parse n p rest).mono fun ds found d member => ?_
    rw [List.reverse_cons]
    exact steps values.reverse rest d holds (found d member)
  · exact fun values rest v => finishes values.reverse rest v

end GrammarKit
