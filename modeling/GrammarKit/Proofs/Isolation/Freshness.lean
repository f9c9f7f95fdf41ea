import GrammarKit.Proofs.Comparison.Frame
import GrammarKit.Proofs.Comparison.Pairing
import GrammarKit.Proofs.Isolation.References

/-! # Parsing gives fresh objects

Evaluated by reference, a parser gives an object that there was not before and that nobody else
knows: if it is the object of another parser, this one has just been used and its object has been
passed on to nobody else. So nothing changes an object while it is being read or filled, and lists
of derivations that nobody can change would do as well. Evaluations by reference come to what
evaluations come to that pass on such lists; the two run side by side.

What a step preserves is the coherence of the store: no two addresses lead to one object.
-/

namespace GrammarKit

theorem Store.within_unlimited (s : Store) : s.Within .unlimited :=
  ⟨fun _ _ _ _ => ⟨Value.within_unlimited _, Value.within_unlimited _⟩,
    fun _ => Value.optionWithin_unlimited _, fun _ _ _ => Parser.within_unlimited _,
    Value.scopeWithin_unlimited _⟩

/-- A coherent store on the one side, and the same store without its objects on the other side. -/
def Sides.references (append : Bool) : Sides where
  bounds := .unlimited
  Coupled s t := s.Coherent ∧ t = s.byValue
  Later := Store.Evolves append
  Excused _ := False
  mayAppend := False
  name _ := trivial
  trans := .trans
  others := .others
  pushed := .push
  appended may := may.elim
  within _ := Store.within_unlimited _
  agree coupled := by
    obtain ⟨-, rfl⟩ := coupled
    exact ⟨rfl, fun _ _ => rfl⟩
  size coupled := by
    obtain ⟨-, rfl⟩ := coupled
    rfl
  next _ := trivial
  cells coupled := by
    obtain ⟨-, rfl⟩ := coupled
    rfl
  debug coupled := by
    obtain ⟨-, rfl⟩ := coupled
    rfl
  lookUp coupled _ := by
    obtain ⟨-, rfl⟩ := coupled
    exact .inl rfl
  loud coupled debug := by
    obtain ⟨coherent, rfl⟩ := coupled
    exact ⟨coherent.congr rfl rfl, rfl⟩
  record coupled entry := by
    obtain ⟨coherent, rfl⟩ := coupled
    exact ⟨coherent.congr rfl rfl, rfl⟩
  note coupled address event := by
    obtain ⟨coherent, rfl⟩ := coupled
    exact ⟨coherent.congr rfl rfl, rfl⟩
  push coupled ds _ := by
    obtain ⟨coherent, rfl⟩ := coupled
    exact ⟨coherent.push ds, rfl⟩
  append may := may.elim
  addCell coupled factory _ := by
    obtain ⟨coherent, rfl⟩ := coupled
    exact ⟨coherent.congr rfl rfl, rfl⟩
  settle {s _} coupled address p _ := by
    obtain ⟨coherent, rfl⟩ := coupled
    exact ⟨coherent.congr (s.results_settle address p) (s.objects_settle address p),
      s.byValue_settle address p⟩

namespace ByReference

open Sides (references)

/-- Whether an evaluator by reference runs side by side with a family of evaluators that become deep
enough, and gives fresh objects. -/
structure Tracks (append : Bool) (ev : ByReference) (E : Nat → Evaluator) : Prop where
  grows : ∀ k, Deep fun m => k ≤ (E m).fuel
  parse : ∀ p input s, s.Coherent → (references append).Ends s
    (fun m => (E m).parse p input s.byValue) s.Fresh (ev.parse p input s)
  call : ∀ f arguments, (references append).Holds (ev.call f arguments)
    (fun m => (E m).call f arguments) fun _ => True
  eval : ∀ scope t, (references append).Holds (ev.eval scope t) (fun m => (E m).eval scope t)
    fun _ => True

variable {append : Bool} {ev : ByReference} {E : Nat → Evaluator}

/-- To read the object at once is to find what the other side has found. -/
theorem Tracks.toEvaluator (tracks : ev.Tracks append E) :
    (references append).comparison.Tracks ev.toEvaluator E where
  grows := tracks.grows
  parse := by
    rintro - p input - - s t ⟨coherent, rfl⟩
    refine (tracks.parse p input s coherent).mapFirst fun o ds s' fresh => ⟨_, rfl, ?_⟩
    exact ⟨fresh.holds.symm, fun _ _ => ⟨Value.within_unlimited _, Value.within_unlimited _⟩⟩
  call _ f arguments _ _ := (tracks.call f arguments).mono fun _ _ => Value.within_unlimited _
  eval _ scope t _ := (tracks.eval scope t).mono fun _ _ => Value.within_unlimited _

variable {before : Store} {s : Store}

/-- What has been found is put into a new object. -/
theorem newObject {x : Eval (List Derivation)}
    {y : Nat → EStateM.Result Stop Store (List Derivation)} {Q : List Derivation → Prop}
    (ends : (references append).Ends before y (Sides.Same Q) (x s)) :
    (references append).Ends before y before.Fresh ((x >>= Store.newObject) s) := by
  generalize found : x s = r at ends
  cases ends with
  | @value _ ds _ _ same coupled later deep =>
    obtain ⟨rfl, -⟩ := same
    obtain ⟨coherent, rfl⟩ := coupled
    rw [Eval.bind_of_eq_ok found]
    exact .value (Store.fresh_addObject later (fun e member => (coherent.inside e member).2) ds)
      ⟨coherent.addObject ds, rfl⟩ (Store.evolves_addObject later ds) deep
  | error coupled later deep =>
    rw [Eval.bind_of_eq_error found]
    exact .error coupled later deep
  | excused coupled later may => exact may.elim
  | exhausted coupled later =>
    rw [Eval.bind_of_eq_error found]
    exact .exhausted coupled later

theorem newObject_of_list (coherent : s.Coherent) (later : before.Evolves append s)
    (ds : List Derivation) : (references append).Ends before
      (fun _ => (Pure.pure ds : Eval _) s.byValue) before.Fresh (Store.newObject ds s) :=
  newObject (x := Pure.pure ds) (Q := fun _ => True)
    (.value ⟨rfl, trivial⟩ ⟨coherent, rfl⟩ later (.always fun _ => rfl))

/-- What is fresh later on is fresh. -/
theorem gives_since {middle : Store} {y : Nat → EStateM.Result Stop Store (List Derivation)}
    {r : EStateM.Result Stop Store Nat} (earlier : before.Evolves append middle)
    (ends : (references append).Ends middle y middle.Fresh r) :
    (references append).Ends before y before.Fresh r :=
  Sides.Ends.after earlier (ends.mono fun _ _ _ fresh => fresh.since earlier)

/-- What a parser gives is known by a new address alone. -/
theorem giveAddress {x : Eval Nat} {y : Nat → Eval (List Derivation)}
    (ends : (references append).Ends s (fun m => y m s.byValue) s.Fresh (x s)) :
    (references append).Ends s (fun m => (y m >>= Store.newResult) s.byValue)
      (Sides.Same fun _ => True) ((x >>= Store.giveAddress) s) := by
  refine ends.bind (.refl _) ?_
  rintro o ds s' _ fresh ⟨coherent, rfl⟩ later
  refine .value ⟨rfl, trivial⟩ ⟨coherent.handOut fresh.inside fresh.unknown, ?_⟩
    (Store.evolves_handOut later fresh) (.always fun _ => rfl)
  rw [← fresh.holds]
  rfl

/-- Appending to the object at an address is appending to the list there. -/
theorem appended (coherent : s.Coherent) (address : Nat) (ds : List Derivation) :
    (references true).Ends s
      (fun _ => .ok (Value.result address) (s.byValue.appendTo address ds))
      (Sides.Same fun _ => True) (.ok (Value.result address) (s.appendAt address ds)) :=
  .value ⟨rfl, trivial⟩
    ⟨coherent.appendAt address ds, (coherent.byValue_appendAt address ds).symm⟩
    (Store.evolves_appendAt s address ds) (.always fun _ => rfl)

namespace Tracks

variable (tracks : ev.Tracks append E)

include tracks

/-! ## Sequences -/

/-- While the continuations of the derivations of an object are evaluated, this object stays as it
is, and the one for what they give is not changed by anybody else. -/
theorem continueFrom (next : Value) {first out : Nat} (rest : List Derivation) :
    ∀ {s : Store} {acc : List Derivation} {turns : Nat} {middle : Store}
      (done : List Derivation), s.Coherent → before.Evolves append s →
      middle.Fresh first (done ++ rest) s →
      before.Fresh out acc s → out ≠ first → rest.length < turns →
        (references append).Ends before (fun m => (E m).continueAll next rest s.byValue)
          (fun _ found s' => before.Fresh out (acc ++ found) s')
          (ev.continueFrom next first out turns done.length s) := by
  induction rest with
  | nil =>
    intro s acc turns middle done coherent later read written other more
    obtain ⟨turns, rfl⟩ : ∃ k, turns = k + 1 := ⟨turns - 1, by simp at more; omega⟩
    have ended : (done ++ [])[done.length]? = none := by simp
    rw [ByReference.continueFrom, read.readObject_bind, ended]
    refine .value ?_ ⟨coherent, rfl⟩ later (.always fun _ => rfl)
    rw [List.append_nil]
    exact written
  | cons d rest ih =>
    intro s acc turns middle done coherent later read written other more
    obtain ⟨turns, rfl⟩ : ∃ k, turns = k + 1 := ⟨turns - 1, by simp at more; omega⟩
    have here : (done ++ d :: rest)[done.length]? = some d := by simp
    rw [ByReference.continueFrom, read.readObject_bind, here]
    have continued := (references append).lawful.continuation (w := ()) tracks.toEvaluator
      (Value.within_unlimited next) (Value.within_unlimited d.value)
      (Value.within_unlimited d.remainder)
    refine (continued s s.byValue ⟨coherent, rfl⟩).bind later ?_
    rintro _ p s₁ _ ⟨rfl, -⟩ ⟨coherent₁, rfl⟩ later₁
    refine (tracks.parse p d.remainder s₁ coherent₁).bind (later.trans later₁) ?_
    rintro found ds s₂ _ fresh ⟨coherent₂, rfl⟩ later₂
    -- Neither of the two objects is the one that has just been given.
    have read₂ := (read.later later₁).later later₂
    have written₂ := (written.later later₁).later later₂
    rw [fresh.readObject_bind, written₂.extendObject_bind]
    have fewer : rest.length < turns := by simpa using more
    have rest := ih (done ++ [d]) (coherent₂.fill written₂.unknown (acc ++ ds))
      (Store.evolves_fill ((later.trans later₁).trans later₂) written₂ _)
      (by simpa using Store.fresh_fill_of_ne read₂ other _) (Store.fresh_fill written₂ _) other
      fewer
    rw [Store.byValue_fill written₂.unknown, List.length_append] at rest
    refine rest.mapSecond fun _ others s₃ filled => ?_
    rw [List.append_assoc] at filled
    exact filled

theorem continueAll (next : Value) {first : Nat} {ds : List Derivation} {middle : Store}
    (coherent : s.Coherent) (later : before.Evolves append s)
    (read : middle.Fresh first ds s) :
    (references append).Ends before (fun m => (E m).continueAll next ds s.byValue) before.Fresh
      (ev.continueAll next first s) := by
  have made : s.Evolves append (s.addObject []) :=
    Store.evolves_addObject (.refl _) []
  have read' := read.later made
  rw [ByReference.continueAll, Eval.bind_of_eq_ok (Store.newObject_apply [] s),
    read'.readObject_bind]
  have filled := tracks.continueFrom next ds [] (coherent.addObject []) (later.trans made) read'
    (Store.fresh_addObject later (fun e member => (coherent.inside e member).2) [])
    (Nat.ne_of_gt read.inside) (Nat.lt_succ_self _)
  exact filled.mapFirst fun _ _ _ given => ⟨_, rfl, given⟩

theorem firstOf (input : Value) (ps : List Parser) : ∀ {s : Store}, s.Coherent →
    before.Evolves append s →
      (references append).Ends before (fun m => (E m).firstOf input ps s.byValue) before.Fresh
        (ev.firstOf input ps s) := by
  induction ps with
  | nil =>
    intro s coherent later
    exact newObject_of_list coherent later []
  | cons p ps ih =>
    intro s coherent later
    refine (tracks.parse p input s coherent).bind later ?_
    rintro found ds s₁ _ fresh ⟨coherent₁, rfl⟩ later₁
    rw [fresh.readObject_bind]
    by_cases failed : ds.isEmpty = true
    · simp only [if_pos failed]
      exact ih coherent₁ (later.trans later₁)
    · simp only [if_neg failed]
      exact .value (fresh.since later) ⟨coherent₁, rfl⟩ (later.trans later₁) (.always fun _ => rfl)

/-! ## Repetition -/

omit tracks in
/-- A path that has ended is gathered, on both sides. -/
theorem gather {finish : List Value → Except Error Value} {path : Path} {out : Nat}
    {acc : List Derivation} {next : Eval Unit}
    (next' : Nat → List Derivation → Eval (List Derivation)) (coherent : s.Coherent)
    (later : before.Evolves append s) (fresh : before.Fresh out acc.reverse s)
    (goes : ∀ {s : Store} {acc : List Derivation}, s.Coherent → before.Evolves append s →
      before.Fresh out acc.reverse s →
        (references append).Ends before (fun m => next' m acc s.byValue)
          (fun _ found s' => before.Fresh out found s') (next s)) :
    (references append).Ends before
      (fun m => (do
        let value ← finish path.values.reverse
        next' m (⟨value, path.remainder⟩ :: acc) : Eval (List Derivation)) s.byValue)
      (fun _ found s' => before.Fresh out found s')
      ((do
        let value ← finish path.values.reverse
        Store.extendObject out [⟨value, path.remainder⟩]
        next : Eval Unit) s) := by
  refine Sides.Ends.lift ⟨coherent, rfl⟩ later fun value _ => ?_
  rw [fresh.extendObject_bind, ← List.reverse_cons]
  have filled := Store.fresh_fill fresh (⟨value, path.remainder⟩ :: acc).reverse
  have gone := goes (coherent.fill fresh.unknown _) (Store.evolves_fill later fresh _) filled
  rw [Store.byValue_fill fresh.unknown] at gone
  exact gone

omit tracks in
/-- The object that the paths are gathered in is not changed by anybody else while a step is taken.
-/
theorem exploreTo (step : Value → Eval Nat) (step' : Nat → Value → Eval (List Derivation))
    (steps : ∀ v s, s.Coherent → (references append).Ends s
      (fun m => step' m v s.byValue) s.Fresh (step v s))
    (finish : List Value → Except Error Value) (out budget : Nat) (agenda : List Path) :
    ∀ {s : Store} {acc : List Derivation} {B : Nat → Nat}, s.Coherent →
      before.Evolves append s →
      before.Fresh out acc.reverse s → (Deep fun m => budget ≤ B m) →
        (references append).Ends before
          (fun m => GrammarKit.explore (step' m) finish (B m) agenda acc s.byValue)
          (fun _ found s' => before.Fresh out found s')
          (ByReference.exploreTo step finish out budget agenda s) := by
  induction budget, agenda using ByReference.exploreTo.induct with
  | case1 budget =>
    intro s acc B coherent later fresh _
    simp only [ByReference.exploreTo, GrammarKit.explore]
    exact .value fresh ⟨coherent, rfl⟩ later (.always fun _ => rfl)
  | case2 budget path rest zero ih =>
    intro s acc B coherent later fresh deep
    simp only [ByReference.exploreTo, GrammarKit.explore, if_pos zero]
    exact gather (fun m acc => GrammarKit.explore (step' m) finish (B m) rest acc)
      coherent later fresh fun coherent later fresh => ih coherent later fresh deep
  | case3 budget path rest zero ih1 ih2 ih3 =>
    intro s acc B coherent later fresh deep
    simp only [ByReference.exploreTo, GrammarKit.explore, if_neg zero]
    refine (steps path.remainder s coherent).bind later ?_
    rintro o ds s₁ _ given ⟨coherent₁, rfl⟩ later₁
    have fresh₁ := fresh.later later₁
    have since := later.trans later₁
    rw [given.readObject_bind]
    by_cases failed : ds.isEmpty = true
    · simp only [if_pos failed]
      by_cases first : path.values.isEmpty = true
      · simp only [if_pos first]
        exact ih1 coherent₁ since fresh₁ deep
      · simp only [if_neg first]
        exact gather (fun m acc => GrammarKit.explore (step' m) finish (B m) rest acc)
          coherent₁ since fresh₁ fun coherent later fresh => ih1 coherent later fresh deep
    · simp only [if_neg failed]
      have looked (u : Store) : Store.readResults u = .ok u.results u := rfl
      simp only [Eval.bind_of_eq_ok (looked _)]
      refine Sides.Ends.lift ⟨coherent₁, rfl⟩ since fun opened _ => ?_
      by_cases low : ∀ p ∈ opened, p.height < path.height
      · simp only [dif_pos low]
        exact ih2 opened low coherent₁ since fresh₁ deep
      · simp only [dif_neg low]
        cases budget with
        | zero => exact .exhausted ⟨coherent₁, rfl⟩ since
        | succ budget =>
          have further := ih3 opened (B := fun m => B m - 1) coherent₁ since fresh₁
            (deep.mono fun m le => Nat.le_sub_of_add_le le)
          refine further.congr (deep.mono fun m le => ?_)
          obtain ⟨k, same⟩ : ∃ k, B m = k + 1 := ⟨B m - 1, by omega⟩
          rw [same]
          rfl

theorem repeatParser (q : Parser) (accumulate input : Value) (coherent : s.Coherent) :
    (references append).Ends s
      (fun m => GrammarKit.repeatParser ((E m).parse q) accumulate (E m).fuel input s.byValue)
      s.Fresh (ByReference.repeatParser (ev.parse q) accumulate ev.fuel input s) := by
  rw [ByReference.repeatParser, Eval.bind_of_eq_ok (Store.newObject_apply [] s)]
  have same : s.Evolves append s := .refl _
  have made : s.Fresh s.objects.size [].reverse (s.addObject []) :=
    Store.fresh_addObject same (fun e member => (coherent.inside e member).2) []
  have filled := exploreTo (ev.parse q) (fun m => (E m).parse q)
    (fun v s coherent => tracks.parse q v s coherent) (accumulateValues accumulate)
    s.objects.size ev.fuel [Path.start s.results input] (coherent.addObject [])
    (Store.evolves_addObject same []) made (tracks.grows ev.fuel)
  exact filled.mapFirst fun _ _ _ given => ⟨_, rfl, given⟩

/-! ## Parsing -/

/-- A sequence hands on the object of the continuation that is asked although the first parser
fails, and makes one for what comes after derivations. -/
theorem bind (q : Parser) (next always input : Value) (mapping name : Option Value)
    (coherent : s.Coherent) :
    (references append).Ends s
      (fun m => (E m).process ⟨.bind q next always, mapping, name⟩ input s.byValue) s.Fresh
      (ev.process ⟨.bind q next always, mapping, name⟩ input s) := by
  refine (tracks.parse q input s coherent).bind (.refl _) ?_
  rintro first ds s₁ _ fresh ⟨coherent₁, rfl⟩ later
  have coupled₁ : (references append).Coupled s₁ s₁.byValue := ⟨coherent₁, rfl⟩
  rw [fresh.readObject_bind]
  by_cases failed : ds.isEmpty = true
  · simp only [if_pos failed]
    obtain rfl := List.isEmpty_iff.mp failed
    have asked := (references append).lawful.truth (w := ()) (Value.within_unlimited always)
    refine (asked s₁ s₁.byValue coupled₁).bind later ?_
    rintro _ anyway s₂ _ ⟨rfl, -⟩ ⟨coherent₂, rfl⟩ later₂
    have since := later.trans later₂
    by_cases wanted : anyway = true
    · simp only [if_pos wanted]
      have continued := (references append).lawful.continuation (w := ()) tracks.toEvaluator
        (Value.within_unlimited next) (Value.within_unlimited (.text []))
        (Value.within_unlimited input)
      refine (continued s₂ s₂.byValue ⟨coherent₂, rfl⟩).bind since ?_
      rintro _ p s₃ _ ⟨rfl, -⟩ ⟨coherent₃, rfl⟩ later₃
      exact gives_since (since.trans later₃) (tracks.parse p input s₃ coherent₃)
    · simp only [if_neg wanted]
      exact tracks.continueAll next coherent₂ since (fresh.later later₂)
  · simp only [if_neg failed]
    exact tracks.continueAll next coherent₁ later fresh

/-- What a parser gives before its mapping is applied is fresh, whether it has made it or has been
given it. -/
theorem process (p : Parser) (input : Value) (coherent : s.Coherent) :
    (references append).Ends s (fun m => (E m).process p input s.byValue)
      s.Fresh (ev.process p input s) := by
  have coupled : (references append).Coupled s s.byValue := ⟨coherent, rfl⟩
  obtain ⟨shape, mapping, name⟩ := p
  -- What does not use other parsers makes an object of what it finds.
  have alone := newObject ((references append).lawful.process (w := ()) tracks.toEvaluator
    (Parser.within_unlimited ⟨shape, mapping, name⟩) (Value.within_unlimited input) s _ coupled)
  cases shape with
  | unit _ | zero | item | lazyOver _ | splits _ | emit _ | foreign _ => exact alone
  | negation q =>
    refine (tracks.parse q input s coherent).bind (.refl _) ?_
    rintro o ds s₁ _ fresh ⟨coherent₁, rfl⟩ later
    rw [fresh.readObject_bind]
    by_cases failed : ds.isEmpty = true
    · simp only [if_pos failed]
      exact newObject_of_list coherent₁ later _
    · simp only [if_neg failed]
      exact newObject_of_list coherent₁ later _
  | bind q next always => exact tracks.bind q next always input mapping name coherent
  | choice ps => exact tracks.firstOf input ps coherent (.refl _)
  | many q accumulate => exact tracks.repeatParser q accumulate input coherent
  | lazy address =>
    let owner := Value.parser ⟨.lazy address, mapping, name⟩
    have made : (references append).Holds (ev.toEvaluator.resolve address owner) _ _ :=
      Sides.Holds.resolve tracks.toEvaluator (Value.within_unlimited owner)
    refine (made s s.byValue coupled).bind (.refl _) ?_
    rintro _ q s₁ _ ⟨rfl, -⟩ ⟨coherent₁, rfl⟩ later
    exact gives_since later (tracks.parse q input s₁ coherent₁)

/-- An object stays as it is while its values are passed on to a mapping. -/
theorem mapFrom (mapping : Value) {o : Nat} (rest : List Derivation) :
    ∀ {s : Store} {turns : Nat} {middle : Store} (done : List Derivation), s.Coherent →
      middle.Fresh o (done ++ rest) s → rest.length < turns →
        (references append).Ends s (fun m => (E m).mapValues mapping rest s.byValue)
          (Sides.Same fun _ => True) (ev.mapFrom mapping o turns done.length s) := by
  induction rest with
  | nil =>
    intro s turns middle done coherent read more
    obtain ⟨turns, rfl⟩ : ∃ k, turns = k + 1 := ⟨turns - 1, by simp at more; omega⟩
    have ended : (done ++ [])[done.length]? = none := by simp
    rw [ByReference.mapFrom, read.readObject_bind, ended]
    exact .value ⟨rfl, trivial⟩ ⟨coherent, rfl⟩ (.refl _) (.always fun _ => rfl)
  | cons d rest ih =>
    intro s turns middle done coherent read more
    obtain ⟨turns, rfl⟩ : ∃ k, turns = k + 1 := ⟨turns - 1, by simp at more; omega⟩
    have here : (done ++ d :: rest)[done.length]? = some d := by simp
    rw [ByReference.mapFrom, read.readObject_bind, here]
    refine (tracks.call mapping [d.value] s s.byValue ⟨coherent, rfl⟩).bind (.refl _) ?_
    rintro _ v s₁ _ ⟨rfl, -⟩ ⟨coherent₁, rfl⟩ later
    have fewer : rest.length < turns := by simpa using more
    have others := ih (done ++ [d]) coherent₁ (by simpa using read.later later) fewer
    rw [List.length_append] at others
    refine others.bind later ?_
    rintro _ ds s₂ _ ⟨rfl, -⟩ coupled later₂
    exact .value ⟨rfl, trivial⟩ coupled (later.trans later₂) (.always fun _ => rfl)

theorem produce (p : Parser) (input : Value) (coherent : s.Coherent) :
    (references append).Ends s (fun m => (E m).produce p input s.byValue)
      s.Fresh (ev.produce p input s) := by
  refine (tracks.process p input coherent).bind (.refl _) ?_
  rintro o ds s₁ _ fresh ⟨coherent₁, rfl⟩ later
  cases p.mapping with
  | none => exact .value fresh ⟨coherent₁, rfl⟩ later (.always fun _ => rfl)
  | some mapping =>
    dsimp only
    rw [fresh.readObject_bind]
    exact newObject ((tracks.mapFrom mapping ds [] coherent₁ fresh
      (Nat.lt_succ_self _)).after later)

/-- A parser that is used gives a fresh object. -/
theorem use (p : Parser) (input : Value) (coherent : s.Coherent) :
    (references append).Ends s (fun m => (E m).use p input s.byValue)
      s.Fresh (ev.use p input s) := by
  have deep := tracks.toEvaluator.fuel
  have parser := Parser.within_unlimited p
  unfold ByReference.use Evaluator.use
  split
  · exact .error ⟨coherent, rfl⟩ (.refl _) (.always fun _ => rfl)
  simp only [Eval.branch_apply]
  change (references append).Ends s (fun m => if s.debug = true then _ else _) _ _
  split
  · have tried : (references append).Holds (ev.toEvaluator.logTrying p input) _ _ :=
      Sides.Holds.logTrying deep parser (Value.within_unlimited input)
    refine (tried s s.byValue ⟨coherent, rfl⟩).bind (.refl _) ?_
    rintro _ _ s₁ _ - ⟨coherent₁, rfl⟩ later₁
    refine (tracks.produce p input coherent₁).bind later₁ ?_
    rintro o ds s₂ _ fresh ⟨coherent₂, rfl⟩ later₂
    rw [fresh.readObject_bind]
    have told : (references append).Holds (ev.toEvaluator.logProduced p ds.length) _ _ :=
      Sides.Holds.logProduced deep parser ds.length
    refine (told s₂ s₂.byValue ⟨coherent₂, rfl⟩).bind (later₁.trans later₂) ?_
    rintro _ _ s₃ _ - ⟨coherent₃, rfl⟩ later₃
    exact .value ((fresh.since later₁).later later₃) ⟨coherent₃, rfl⟩
      ((later₁.trans later₂).trans later₃) (.always fun _ => rfl)
  · exact tracks.produce p input coherent

/-! ## Operations and terms -/

theorem operation (o : Operation) (arguments : List Value) :
    (references append).Holds (ev.operation append o arguments)
      (fun m => (E m).applyOperation o arguments) fun _ => True := by
  rintro s _ ⟨coherent, rfl⟩
  unfold ByReference.operation
  split
  · exact .exhausted ⟨coherent, rfl⟩ (.refl _)
  next may =>
  split
  · exact giveAddress (tracks.parse _ _ s coherent)
  · exact giveAddress (tracks.process _ _ coherent)
  · next address v r =>
    have appends : append = true := by simpa [Operation.appends] using may
    subst appends
    exact appended coherent address _
  · next address other =>
    have appends : append = true := by simpa [Operation.appends] using may
    subst appends
    exact appended coherent address _
  · next push extend =>
    have others : o.appends arguments = false := by
      unfold Operation.appends
      split
      · exact (push _ _ _ rfl rfl).elim
      · exact (extend _ _ rfl rfl).elim
      · rfl
    have admits : (references append).comparison.Admits o arguments :=
      Comparison.admits_of_name (fun _ => trivial) fun appends => by simp [others] at appends
    exact ((references append).lawful.applyOperation (w := ()) tracks.toEvaluator
      (fun v _ => Value.within_unlimited v) admits).mono (fun _ _ => trivial) s _ ⟨coherent, rfl⟩

/-- Terms are evaluated side by side. -/
theorem meaning (scope : Scope) (t : Term) :
    (references append).Holds (ev.meaning append scope t) (fun m => (E m).meaning scope t)
      fun _ => True := by
  have within := Value.scopeWithin_unlimited scope
  have lawful := (references append).lawful
  have respects := lawful.respects_withoutAppending (references append).uses trivial
    fun _ => trivial
  -- Only operations are done in another way.
  have others : (references append).Holds (ev.toEvaluator.meaningUnder .withoutAppending scope t)
      (fun m => (E m).meaningUnder {} scope t) fun _ => True :=
    (lawful.meaningUnder (w := ()) respects tracks.toEvaluator t within).mono fun _ _ => trivial
  cases t with
  | apply o arguments =>
    exact (lawful.evalAll (w := ()) tracks.toEvaluator arguments within).bind fun vs _ =>
      tracks.operation o vs
  | _ => exact others

end Tracks

/-- Evaluation by reference gives fresh objects, at every depth. The induction is on the depth. -/
theorem tracks (append : Bool) (n : Nat) : (byReference append n).Tracks append evaluator := by
  have grows (k : Nat) : Deep fun m => k ≤ (evaluator m).fuel := by
    refine (Deep.beyond (k + 1)).mono fun m le => ?_
    obtain ⟨m, rfl⟩ : ∃ k, m = k + 1 := ⟨m - 1, by omega⟩
    exact Nat.le_of_succ_le_succ le
  -- One step further down on both sides.
  have shallower (k : Nat) : Deep fun m => k ≤ m.pred :=
    (Deep.beyond (k + 1)).mono fun m le => Nat.le_pred_of_lt le
  have below {P : Nat → Prop} (here : ∀ m, P (m + 1)) : Deep P :=
    (Deep.beyond 1).mono fun m le => by
      obtain ⟨m, rfl⟩ : ∃ k, m = k + 1 := ⟨m - 1, by omega⟩
      exact here m
  induction n with
  | zero =>
    refine ⟨grows, fun _ _ s coherent => ?_, fun _ _ => .outOfFuel, fun _ _ => .outOfFuel⟩
    exact .exhausted ⟨coherent, rfl⟩ (.refl _)
  | succ n ih =>
    refine ⟨grows, fun p input s coherent => ?_, fun f arguments => ?_, fun scope t => ?_⟩
    · exact ((ih.use p input coherent).deepen Nat.pred shallower).congr (below fun _ => rfl)
    · have applied := (references append).lawful.apply (w := ()) ih.toEvaluator
        (Value.within_unlimited f) (fun v (_ : v ∈ arguments) => Value.within_unlimited v)
      exact (applied.mono fun _ _ => trivial).deepen Nat.pred shallower (below fun _ => rfl)
    · exact (ih.meaning scope t).deepen Nat.pred shallower (below fun _ => rfl)

/-! ## Sessions -/

theorem evaluate {ev : ByReference} {E : Nat → Evaluator} (tracks : ev.Tracks append E)
    (step : Step) :
    (references append).Holds (Session.evaluate ev.toEvaluator step)
      (fun m => Session.evaluate (E m) step) fun _ => True := by
  refine Sides.Holds.bind (tracks.eval [] step.term) fun v _ => ?_
  have bound : (references append).Holds (Session.bindGlobal step.binding v)
      (fun _ => Session.bindGlobal step.binding v) fun _ => True := by
    cases step.binding with
    | none => exact .pure trivial
    | some name =>
      refine .step (f := fun _ => ()) (fun _ => rfl) (fun _ => ⟨rfl, trivial⟩) ?_ fun _ =>
        .others rfl rfl
      rintro s _ ⟨coherent, rfl⟩
      exact ⟨coherent.congr rfl rfl, rfl⟩
  refine bound.bind fun _ _ => ?_
  exact ((references append).lawful.snapshot (w := ()) tracks.toEvaluator.fuel
    (Value.within_unlimited v)).mono fun _ _ => trivial

/-- However a step ends, it leads to a coherent store. -/
theorem runStep (append : Bool) (n : Nat) (step : Step) (coherent : s.Coherent) :
    let run := Session.runStep (byReference append n).toEvaluator step s
    run.2.Coherent ∧ (run.1.answer ≠ .error .outOfFuel →
      Deep fun m => Session.runStep (evaluator m) step s.byValue = (run.1, run.2.byValue)) := by
  have start : (references append).Coupled { s with trace := #[] }
      { s.byValue with trace := #[] } := ⟨coherent.congr rfl rfl, rfl⟩
  have ends := evaluate (tracks append n) step _ _ start
  simp only [Session.runStep_eq]
  generalize Session.evaluate (byReference append n).toEvaluator step { s with trace := #[] } = r
    at ends
  cases ends with
  | value same coupled _ deep =>
    obtain ⟨rfl, -⟩ := same
    obtain ⟨coherent', rfl⟩ := coupled
    exact ⟨coherent', fun _ => deep.mono fun m here => congrArg Outcome.ofResult here⟩
  | error coupled _ deep =>
    obtain ⟨coherent', rfl⟩ := coupled
    exact ⟨coherent', fun _ => deep.mono fun m here => congrArg Outcome.ofResult here⟩
  | excused _ _ may => exact may.elim
  | exhausted coupled => exact ⟨coupled.1, fun ended => absurd rfl ended⟩

/-- Evaluated by reference, the steps of a session lead to coherent stores, and they end as they do
otherwise if none is given up. -/
theorem runSteps (append : Bool) (n : Nat) (steps : List Step) : ∀ {s : Store}, s.Coherent →
    let run := Session.runSteps (byReference append n).toEvaluator steps s
    run.2.Coherent ∧ ((∀ outcome ∈ run.1, outcome.answer ≠ .error .outOfFuel) →
      Deep fun m => Session.runSteps (evaluator m) steps s.byValue = (run.1, run.2.byValue)) := by
  induction steps with
  | nil => exact fun coherent => ⟨coherent, fun _ => .always fun _ => rfl⟩
  | cons step steps ih =>
    intro s coherent
    obtain ⟨coherent₁, first⟩ := runStep append n step coherent
    obtain ⟨coherent₂, rest⟩ := ih coherent₁
    refine ⟨coherent₂, fun finished => ?_⟩
    obtain ⟨here, others⟩ := List.forall_mem_cons.mp finished
    refine (first here).both (rest others) fun m same same' => ?_
    simp only [Session.runSteps, same, same']

end ByReference

end GrammarKit
