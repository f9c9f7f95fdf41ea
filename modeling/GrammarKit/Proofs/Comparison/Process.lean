import GrammarKit.Proofs.Comparison.Call

/-! # Parsing compares

What a parser does with an input compares if what its parts do compares, and the calls of its
continuations and of its mapping. A repetition may go on for longer where it is given more depth, so
its budget counts among the depths.
-/

namespace GrammarKit.Comparison.Lawful

open Value (hereditary_within)

variable {c : Comparison} (lawful : c.Lawful) {w : c.World} {ev : Evaluator}
  {E : Nat → Evaluator}

include lawful

omit lawful in
theorem derivations_nil : c.derivations w [] := List.forall_mem_nil _

theorem derivations_mono {w' : c.World} {ds : List Derivation} (later : c.Later w w')
    (all : c.derivations w ds) : c.derivations w' ds :=
  fun d member => Value.Within.mono (lawful.wider later) (all d member)

theorem values_mono {w' : c.World} {vs : List Value} (later : c.Later w w')
    (all : c.values w vs) : c.values w' vs :=
  fun v member => (all v member).mono (lawful.wider later)

/-! ## Sequencing and choice -/

theorem continuation (tracks : c.Tracks ev E) {next value remainder : Value}
    (continues : c.value w next) (matched : c.value w value) (rest : c.value w remainder) :
    c.holds w (ev.continuation next value remainder)
      (fun m => (E m).continuation next value remainder) c.parser := by
  refine ite (fun _ => ?_) fun _ => lawful.pure (Parser.within_asParser.mpr continues)
  have both : c.values w [value, remainder] :=
    List.forall_mem_cons.mpr ⟨matched, List.forall_mem_singleton.mpr rest⟩
  have given : c.values w ([value, remainder].take (next.arity 2)) :=
    fun v member => both v (List.mem_of_mem_take member)
  exact lawful.bind (tracks.call w next _ continues given) fun w' v _ result =>
    lawful.pure (Parser.within_asParser.mpr result)

theorem continueAll (tracks : c.Tracks ev E) {next : Value} (found : List Derivation) :
    ∀ {w : c.World}, c.value w next → c.derivations w found →
      c.holds w (ev.continueAll next found) (fun m => (E m).continueAll next found)
        c.derivations := by
  induction found with
  | nil => exact fun _ _ => lawful.pure derivations_nil
  | cons d found ih =>
    intro w continues all
    obtain ⟨here, others⟩ := List.forall_mem_cons.mp all
    refine lawful.bind (lawful.continuation tracks continues here.1 here.2) ?_
    intro w' p later parser
    refine lawful.bind (tracks.parse w' p d.remainder parser (here.2.mono (lawful.wider later))) ?_
    intro w'' ds later' after
    have since := lawful.trans later later'
    refine lawful.bind (ih (continues.mono (lawful.wider since))
      (lawful.derivations_mono since others)) fun w''' others later'' rest => lawful.pure ?_
    exact List.forall_mem_append.mpr ⟨lawful.derivations_mono later'' after, rest⟩

theorem firstOf (tracks : c.Tracks ev E) {input : Value} (ps : List Parser) :
    ∀ {w : c.World}, c.value w input → (∀ p ∈ ps, c.parser w p) →
      c.holds w (ev.firstOf input ps) (fun m => (E m).firstOf input ps) c.derivations := by
  induction ps with
  | nil => exact fun _ _ => lawful.pure derivations_nil
  | cons p ps ih =>
    intro w read all
    obtain ⟨here, others⟩ := List.forall_mem_cons.mp all
    refine lawful.bind (tracks.parse w p input here read) fun w' found later after => ?_
    refine ite (fun _ => ?_) fun _ => lawful.pure after
    have le := lawful.wider later
    exact ih (read.mono le) fun q member => Parser.Within.mono le (others q member)

/-! ## Repetition -/

/-- What a path has led through is within bounds. -/
structure PathWithin (c : Comparison) (w : c.World) (path : Path) : Prop where
  values : c.values w path.values
  remainder : c.value w path.remainder

theorem PathWithin.mono {w' : c.World} {path : Path} (later : c.Later w w')
    (within : PathWithin c w path) : PathWithin c w' path :=
  ⟨lawful.values_mono later within.values, within.remainder.mono (lawful.wider later)⟩

theorem gathered {path : Path} (within : PathWithin c w path) (accumulate : Value) :
    c.steady w (liftM (accumulateValues accumulate path.values.reverse))
      (fun _ => liftM (accumulateValues accumulate path.values.reverse)) (c.value w) :=
  lawful.lift fun _ gathered => hereditary_within.accumulateValues
    (fun v member => within.values v (List.mem_reverse.mp member)) gathered

/-- Repetitions of a step compare if the step does, whatever is on the agenda. -/
theorem explore {u : c.World} {step : Value → Eval (List Derivation)}
    {step' : Nat → Value → Eval (List Derivation)} {accumulate : Value}
    (steps : ∀ w (v : Value), c.Later u w → c.value w v →
      c.holds w (step v) (fun m => step' m v) c.derivations)
    (budget : Nat) (agenda : List Path) (out : List Derivation) :
    ∀ {w : c.World} {B : Nat → Nat}, c.Later u w → (Deep fun m => budget ≤ B m) →
      (∀ path ∈ agenda, PathWithin c w path) → c.derivations w out →
        c.holds w (GrammarKit.explore step (accumulateValues accumulate) budget agenda out)
          (fun m => GrammarKit.explore (step' m) (accumulateValues accumulate) (B m) agenda out)
          c.derivations := by
  induction budget, agenda, out using explore.induct with
  | case1 budget out =>
    intro w B _ _ _ ended
    simp only [GrammarKit.explore]
    exact lawful.pure fun d member => ended d (List.mem_reverse.mp member)
  | case2 budget out path rest zero ih =>
    intro w B since deep open_ ended
    obtain ⟨here, others⟩ := List.forall_mem_cons.mp open_
    simp only [GrammarKit.explore, if_pos zero]
    refine lawful.after (lawful.gathered here accumulate) fun value within => ?_
    exact ih value since deep others
      (List.forall_mem_cons.mpr ⟨⟨within, here.remainder⟩, ended⟩)
  | case3 budget out path rest zero ih1 ih2 ih3 ih4 =>
    intro w B since deep open_ ended
    obtain ⟨here, others⟩ := List.forall_mem_cons.mp open_
    simp only [GrammarKit.explore, if_neg zero]
    refine lawful.bind (steps w path.remainder since here.remainder) fun w' found later all => ?_
    have since' := lawful.trans since later
    have here' := PathWithin.mono lawful later here
    have others' := fun p member => PathWithin.mono lawful later (others p member)
    have ended' := lawful.derivations_mono later ended
    refine ite (fun _ => ite (fun _ => ?_) fun _ => ?_) fun _ => ?_
    · exact ih1 since' deep others' ended'
    · refine lawful.after (lawful.gathered here' accumulate) fun value within => ?_
      exact ih2 value since' deep others'
        (List.forall_mem_cons.mpr ⟨⟨within, here'.remainder⟩, ended'⟩)
    · refine lawful.look (Path.local_extendAll here'.remainder all) (fun _ _ _ extended =>
        Path.exists_of_mem_extendAll _ extended) ?_
      rintro opened ⟨_, each⟩
      have good : ∀ p ∈ opened ++ rest, PathWithin c w' p := by
        refine List.forall_mem_append.mpr ⟨fun p member => ?_, others'⟩
        obtain ⟨d, inside, values, remainder⟩ := each p member
        have within := all d inside
        refine ⟨?_, remainder ▸ within.2⟩
        rw [values]
        exact List.forall_mem_cons.mpr ⟨within.1, here'.values⟩
      by_cases low : ∀ p ∈ opened, p.height < path.height
      · simp only [dif_pos low]
        exact ih3 opened low since' deep good ended'
      · simp only [dif_neg low]
        cases budget with
        | zero => exact lawful.outOfFuel
        | succ budget =>
          refine lawful.congr (y := fun m => GrammarKit.explore (step' m) _ (B m - 1) _ _)
            (deep.mono fun m le => ?_)
            (ih4 opened since' (deep.mono fun m le => Nat.le_sub_of_add_le le) good ended')
          obtain ⟨k, same⟩ : ∃ k, B m = k + 1 := ⟨B m - 1, by omega⟩
          rw [same]
          rfl

/-! ## Parsing -/

theorem process (tracks : c.Tracks ev E) {p : Parser} {input : Value} (parser : c.parser w p)
    (read : c.value w input) :
    c.holds w (ev.process p input) (fun m => (E m).process p input) c.derivations := by
  obtain ⟨shape, mapping, name⟩ := p
  have basic : shape.Within (c.bounds w) := parser.1
  have stay {w : c.World} {v : Value} (value : c.value w v) (read : c.value w input) :
      c.derivations w [⟨v, input⟩] := List.forall_mem_singleton.mpr ⟨value, read⟩
  cases shape with
  | unit v =>
    cases v with
    | missing => exact lawful.pure (stay read read)
    | _ => exact lawful.pure (stay basic read)
  | zero => exact lawful.pure derivations_nil
  | item =>
    refine lawful.look (P := fun parts => ∀ v rest, parts = some (v, rest) →
        c.value w v ∧ c.value w rest) (Value.local_uncons? read) ?_ fun parts within => ?_
    · rintro results store _ split v rest rfl
      exact hereditary_within.uncons? store read split
    · cases parts with
      | none => exact lawful.pure derivations_nil
      | some parts => exact lawful.pure (List.forall_mem_singleton.mpr (within _ _ rfl))
  | negation q =>
    refine lawful.bind (tracks.parse w q input basic read) fun w' found later _ => ?_
    have read' := read.mono (lawful.wider later)
    exact ite (fun _ => lawful.pure (stay read' read')) fun _ => lawful.pure derivations_nil
  | bind q next always =>
    refine lawful.bind (tracks.parse w q input basic.1 read) fun w' found later all => ?_
    have le := lawful.wider later
    have continues := basic.2.1.mono le
    refine ite (fun _ => ?_) fun _ => lawful.continueAll tracks found continues all
    refine lawful.after (lawful.truth (basic.2.2.mono le)) fun anyway _ => ?_
    refine ite (fun _ => ?_) fun _ => lawful.pure derivations_nil
    have empty : c.value w' (.text []) := trivial
    refine lawful.bind (lawful.continuation tracks continues empty (read.mono le)) ?_
    intro w'' next later' parser
    exact tracks.parse w'' next input parser ((read.mono le).mono (lawful.wider later'))
  | choice ps => exact lawful.firstOf tracks ps read ((Parser.allWithin_iff ps).mp basic)
  | many q accumulate =>
    refine lawful.reading (fun results _ => ?_) fun m => (Path.local_start read).map fun start =>
      GrammarKit.explore ((E m).parse q) (accumulateValues accumulate) (E m).fuel [start] []
    have start : PathWithin c w (.start results input) := ⟨List.forall_mem_nil _, read⟩
    refine lawful.explore (u := w) (fun w' v later inside => ?_) _ _ _ (lawful.refl w)
      tracks.fuel (List.forall_mem_singleton.mpr start) derivations_nil
    exact tracks.parse w' q v (Parser.Within.mono (lawful.wider later) basic.1) inside
  | lazy address =>
    refine lawful.bind (lawful.resolve tracks parser) fun w' q later defined => ?_
    exact tracks.parse w' q input defined (read.mono (lawful.wider later))
  | lazyOver _ | foreign _ => exact lawful.raise _
  | splits sizes =>
    refine lawful.holds_of_steady (P := c.derivations w) (fun _ all => all) ?_
    exact lawful.observe (Evaluator.local_splitAt read sizes)
      fun _ store => hereditary_within.splitAt store read sizes
  | emit pairs =>
    have all := (Value.allWithin_iff pairs).mp basic
    refine lawful.holds_of_steady (P := c.derivations w) (fun _ all => all) ?_
    exact lawful.observe (Value.local_toDerivations all)
      fun _ store => hereditary_within.toDerivations store all

theorem mapValues (tracks : c.Tracks ev E) {mapping : Value} (ds : List Derivation) :
    ∀ {w : c.World}, c.value w mapping → c.derivations w ds →
      c.holds w (ev.mapValues mapping ds) (fun m => (E m).mapValues mapping ds)
        c.derivations := by
  induction ds with
  | nil => exact fun _ _ => lawful.pure derivations_nil
  | cons d ds ih =>
    intro w function all
    obtain ⟨here, others⟩ := List.forall_mem_cons.mp all
    refine lawful.bind (tracks.call w mapping [d.value] function
      (List.forall_mem_singleton.mpr here.1)) fun w' v later value => ?_
    refine lawful.bind (ih (function.mono (lawful.wider later))
      (lawful.derivations_mono later others)) fun w'' rest later' all => lawful.pure ?_
    have le' := lawful.wider later'
    exact List.forall_mem_cons.mpr
      ⟨⟨value.mono le', (here.2.mono (lawful.wider later)).mono le'⟩, all⟩

theorem produce (tracks : c.Tracks ev E) {p : Parser} {input : Value} (parser : c.parser w p)
    (read : c.value w input) :
    c.holds w (ev.produce p input) (fun m => (E m).produce p input) c.derivations := by
  refine lawful.bind (lawful.process tracks parser read) fun w' found later all => ?_
  obtain ⟨shape, mapping, name⟩ := p
  cases mapping with
  | none => exact lawful.pure all
  | some f =>
    have function : c.value w f := parser.2.1
    exact lawful.mapValues tracks found (function.mono (lawful.wider later)) all

/-- Uses of a parser compare if the evaluations within them do. -/
theorem parse (uses : c.Uses) (tracks : c.Tracks ev E) {p : Parser} {input : Value}
    (parser : c.parser w p) (read : c.value w input) :
    c.holds w (ev.use p input) (fun m => (E m).use p input) c.derivations :=
  uses tracks.grows parser read fun _ later => lawful.produce tracks
    (Parser.Within.mono (lawful.wider later) parser) (read.mono (lawful.wider later))

end GrammarKit.Comparison.Lawful
