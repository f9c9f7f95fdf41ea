import GrammarKit.Proofs.Comparison.Basic

/-! # Calls compare

What a function gives compares if the calls within it do. The steps of the library's combinators
read result lists, take values apart and call functions again; functions written in terms are
evaluated with their parameters as variables.
-/

namespace GrammarKit.Comparison.Lawful

open Value (hereditary_within)

variable {c : Comparison} (lawful : c.Lawful) {w : c.World} {ev : Evaluator}
  {E : Nat → Evaluator} {α : Type}

include lawful

theorem truth {v : Value} (within : c.value w v) :
    c.steady w (Evaluator.truth v) (fun _ => Evaluator.truth v) fun _ => True :=
  lawful.reading (fun _ _ => lawful.pure ⟨rfl, trivial⟩) fun _ =>
    (Value.local_truth within).map fun h => (Pure.pure h : Eval Bool)

theorem display (deep : Deep fun m => ev.fuel ≤ (E m).fuel) {v : Value} (within : c.value w v) :
    c.steady w (ev.display v) (fun m => (E m).display v) fun _ => True :=
  lawful.observeStop (f := fun k results => v.display results k)
    (fun n => Value.local_display n within) (fun _ _ le => Value.sooner_display le v) deep
    fun _ _ _ _ => trivial

theorem equal (deep : Deep fun m => ev.fuel ≤ (E m).fuel) {a b : Value} (left : c.value w a)
    (right : c.value w b) :
    c.steady w (ev.equal a b) (fun m => (E m).equal a b) fun _ => True :=
  lawful.observeStop (f := fun k results => Value.equal results k a b)
    (fun n => Value.local_equal n left right) (fun _ _ le => Value.sooner_equal le a b) deep
    fun _ _ _ _ => trivial

theorem isMember (deep : Deep fun m => ev.fuel ≤ (E m).fuel) {v : Value} {members : List Value}
    (within : c.value w v) (all : c.values w members) :
    c.steady w (ev.isMember v members) (fun m => (E m).isMember v members) fun _ => True :=
  ite (fun _ => lawful.observeStop (f := fun k results => Value.anyEqual results k v members)
    (fun n => Value.local_anyEqual n within all)
    (fun _ _ le => Value.sooner_anyEqual le v members) deep fun _ _ _ _ => trivial)
    fun _ => lawful.raise _

theorem actual {p : Parser} (within : c.parser w p) :
    c.steady w (Evaluator.actual p) (fun _ => Evaluator.actual p) (c.parser w) :=
  ite (fun _ => lawful.raise _) fun _ => lawful.pure ⟨rfl, within⟩

theorem items {v : Value} (within : c.value w v) {k : List Value → Eval α}
    {k' : Nat → List Value → Eval α} {Q : c.World → α → Prop}
    (next : ∀ vs, c.values w vs → c.holds w (k vs) (fun m => k' m vs) Q) :
    c.holds w (Store.readResults >>= fun results => liftM (v.items results) >>= k)
      (fun m => Store.readResults >>= fun results => liftM (v.items results) >>= k' m) Q :=
  lawful.look (Value.local_items within)
    (fun _ store _ items => hereditary_within.items store within items) next

theorem unpair {v : Value} (within : c.value w v) {k : Value × Value → Eval α}
    {k' : Nat → Value × Value → Eval α} {Q : c.World → α → Prop}
    (next : ∀ a b, c.value w a → c.value w b → c.holds w (k (a, b)) (fun m => k' m (a, b)) Q) :
    c.holds w (Store.readResults >>= fun results => liftM (v.unpair results) >>= k)
      (fun m => Store.readResults >>= fun results => liftM (v.unpair results) >>= k' m) Q :=
  lawful.look (Value.local_unpair within)
    (fun _ store _ items => hereditary_within.unpair store within items)
    fun both parts => next both.1 both.2 parts.1 parts.2

theorem itemOf {pair : Value} (i : Int) (within : c.value w pair) :
    c.steady w (Evaluator.itemOf pair i) (fun _ => Evaluator.itemOf pair i) (c.value w) :=
  lawful.observe (Value.local_index within _)
    fun _ store _ item => hereditary_within.index store within item

theorem add {a b : Value} (left : c.value w a) (right : c.value w b) :
    c.holds w (Evaluator.add a b) (fun _ => Evaluator.add a b) c.value := by
  unfold Evaluator.add
  split
  · next x y =>
    refine lawful.reading (fun results store => lawful.newResult ?_) fun _ => ?_
    · exact List.forall_mem_append.mpr ⟨store x left, store y right⟩
    · intro results results' _ same
      simp only [same.read x left, same.read y right]
  · exact lawful.raise _
  · refine lawful.holds_of_steady (P := c.value w) (fun _ sum => sum) (lawful.lift ?_)
    exact fun _ sum => hereditary_within.add left right sum

/-! ## Folds -/

theorem foldStep (tracks : c.Tracks ev E) {x pair : Value} (first : c.value w x)
    (within : c.value w pair) :
    c.holds w (ev.foldStep x pair) (fun m => (E m).foldStep x pair) c.value := by
  refine lawful.unpair within fun f y operator operand => ?_
  exact tracks.call w f [x, y] operator (List.forall_mem_cons.mpr
    ⟨first, List.forall_mem_singleton.mpr operand⟩)

theorem foldLeft (tracks : c.Tracks ev E) (pairs : List Value) : ∀ {w : c.World} {x : Value},
    c.value w x → c.values w pairs →
      c.holds w (ev.foldLeft x pairs) (fun m => (E m).foldLeft x pairs) c.value := by
  induction pairs with
  | nil => exact fun first _ => lawful.pure first
  | cons pair pairs ih =>
    intro w x first all
    obtain ⟨head, tail⟩ := List.forall_mem_cons.mp all
    refine lawful.bind (lawful.foldStep tracks first head) fun w' y later next => ?_
    exact ih next fun v member => (tail v member).mono (lawful.wider later)

theorem foldResult (tracks : c.Tracks ev E) {address : Nat} (fuel : Nat) :
    ∀ {w : c.World} {F : Nat → Nat} {i : Nat} {x : Value}, (Deep fun m => fuel ≤ F m) →
      c.value w (.result address) → c.value w x →
        c.holds w (ev.foldResult address fuel i x) (fun m => (E m).foldResult address (F m) i x)
          c.value := by
  induction fuel with
  | zero => exact fun _ _ _ => lawful.outOfFuel
  | succ fuel ih =>
    intro w F i x deep known first
    refine lawful.congr (y := fun m => (E m).foldResult address (F m - 1 + 1) i x)
      (deep.mono fun m le => by rw [Nat.sub_add_cancel (Nat.le_of_add_left_le le)]) ?_
    have deep' : Deep fun m => fuel ≤ F m - 1 := deep.mono fun m le => Nat.le_sub_of_add_le le
    refine lawful.reading (fun results store => ?_) fun m => ?_
    · cases found : (results.read address)[i]? with
      | none => exact lawful.pure first
      | some d =>
        have here := store address known d (List.mem_of_getElem? found)
        refine lawful.bind (lawful.foldStep tracks first here) fun w' y later next => ?_
        exact ih deep' (known.mono (lawful.wider later)) next
    · intro results results' _ same
      simp only [same.read address known]

theorem foldRight (tracks : c.Tracks ev E) (pairs : List Value) :
    ∀ {w : c.World} {x gathered : Value}, c.value w x → c.value w gathered →
      c.values w pairs →
        c.holds w (ev.foldRight x gathered pairs) (fun m => (E m).foldRight x gathered pairs)
          c.value := by
  induction pairs with
  | nil => exact fun _ last _ => lawful.pure last
  | cons pair before ih =>
    intro w x gathered first last all
    obtain ⟨head, tail⟩ := List.forall_mem_cons.mp all
    refine lawful.after (lawful.itemOf 0 head) fun f operator => ?_
    have rest {y : Value} (operand : c.value w y) :
        c.holds w (do ev.foldRight x (← ev.call f [y, gathered]) before)
          (fun m => do (E m).foldRight x (← (E m).call f [y, gathered]) before) c.value := by
      have given : c.values w [y, gathered] :=
        List.forall_mem_cons.mpr ⟨operand, List.forall_mem_singleton.mpr last⟩
      refine lawful.bind (tracks.call w f [y, gathered] operator given) fun w' z later next => ?_
      have le := lawful.wider later
      exact ih (first.mono le) next fun v member => (tail v member).mono le
    cases before with
    | nil => exact rest first
    | cons previous others =>
      exact lawful.after (lawful.itemOf 1 (tail previous List.mem_cons_self)) fun _ => rest

theorem foldOperands (tracks : c.Tracks ev E) (rightmost : Bool) {x steps : Value}
    (first : c.value w x) (within : c.value w steps) :
    c.holds w (ev.foldOperands rightmost x steps) (fun m => (E m).foldOperands rightmost x steps)
      c.value := by
  unfold Evaluator.foldOperands
  refine ite (fun _ => ?_) fun _ => ?_
  · refine lawful.after (lawful.truth within) fun holds _ => ?_
    refine ite (fun _ => ?_) fun _ => lawful.pure first
    refine lawful.items within fun pairs all => ?_
    have backwards : c.values w pairs.reverse :=
      fun v member => all v (List.mem_reverse.mp member)
    cases reversed : pairs.reverse with
    | nil => exact lawful.pure first
    | cons last before =>
      rw [reversed] at backwards
      refine lawful.after (lawful.itemOf 1 (backwards last List.mem_cons_self)) ?_
      exact fun y operand => lawful.foldRight tracks _ first operand backwards
  · split
    · exact lawful.foldResult tracks _ tracks.fuel within first
    · exact lawful.items within fun pairs all => lawful.foldLeft tracks pairs first all

/-! ## Steps of the library -/

theorem joinSpelled {expected head tail : Value} (first : c.value w head)
    (others : c.value w tail) :
    c.holds w (Evaluator.joinSpelled expected head tail)
      (fun _ => Evaluator.joinSpelled expected head tail) c.value := by
  unfold Evaluator.joinSpelled
  split
  · exact lawful.add first others
  · refine lawful.items others fun vs all => lawful.pure ?_
    exact (hereditary_within.list _).mpr (List.forall_mem_cons.mpr ⟨first, all⟩)

theorem finishSpelled (deep : Deep fun m => ev.fuel ≤ (E m).fuel)
    {expected allowShort matched : Value} (target : c.value w expected)
    (short : c.value w allowShort) (within : c.value w matched) :
    c.holds w (ev.finishSpelled expected allowShort matched)
      (fun m => (E m).finishSpelled expected allowShort matched) c.value := by
  have failure : c.value w (.parser Parser.zero) := Parser.within_zero
  refine lawful.after (lawful.truth short) fun _ _ => ?_
  refine ite (fun _ => lawful.pure within) fun _ => ?_
  split
  · refine lawful.after (lawful.equal deep within target) fun same _ => ?_
    exact ite (fun _ => lawful.pure target) fun _ => lawful.pure failure
  · refine lawful.items target fun vs all => ?_
    have whole : c.value w (.list vs) := (hereditary_within.list vs).mpr all
    refine lawful.after (lawful.equal deep within whole) fun same _ => ?_
    exact ite (fun _ => lawful.pure within) fun _ => lawful.pure failure

/-- The steps of the library's combinators compare. -/
theorem applyStep (tracks : c.Tracks ev E) {f : Callback} {v : Value}
    (step : f.Within (c.bounds w)) (within : c.value w v) :
    c.holds w (ev.applyStep f v) (fun m => (E m).applyStep f v) c.value := by
  have only {w : c.World} {u : Value} (within : c.value w u) : c.values w [u] :=
    List.forall_mem_singleton.mpr within
  have value {w : c.World} {p : Parser} (parser : p.Within (c.bounds w)) :
      c.value w (.parser p) := parser
  have here : v.Within (c.bounds w) := within
  cases f with
  | composed first second =>
    refine lawful.bind (tracks.call w first [v] step.1 (only within)) fun w' u later next => ?_
    exact tracks.call w' second [u] (step.2.mono (lawful.wider later)) (only next)
  | test condition =>
    refine lawful.bind (tracks.call w condition [v] step (only within)) fun w' u later result => ?_
    refine lawful.after (lawful.truth result) fun holds _ => ite (fun _ => ?_) fun _ => ?_
    · exact lawful.pure (within.mono (lawful.wider later))
    · exact lawful.pure (value Parser.within_zero)
  | equals expected =>
    exact lawful.after (lawful.equal tracks.fuel within step) fun _ _ => lawful.pure trivial
  | oneOf members inside =>
    have all := (Value.allWithin_iff members).mp step
    exact lawful.after (lawful.isMember tracks.fuel within all) fun _ _ => lawful.pure trivial
  | constant value => exact lawful.pure step
  | spellRest base expected allowShort =>
    obtain ⟨parser, target, short⟩ := step
    refine lawful.lookTwice (Value.local_slice target _ _ _)
      (fun _ store _ cut => hereditary_within.slice store target cut)
      (fun rest kept => Parser.local_spell base kept allowShort)
      (fun _ store rest kept _ spelled => Parser.within_spell store parser kept short spelled)
      fun others spelled => ?_
    exact lawful.pure (value (by simp [spelled, target, short, here]))
  | spellJoin expected allowShort head =>
    obtain ⟨target, short, first⟩ := step
    refine lawful.bind (lawful.joinSpelled first within) fun w' matched later joined => ?_
    have le := lawful.wider later
    exact lawful.finishSpelled tracks.fuel (target.mono le) (short.mono le) joined
  | listRest following =>
    exact lawful.pure (value (by simpa using ⟨step, here⟩))
  | listJoin head =>
    refine lawful.holds_of_steady (P := c.value w) (fun _ sum => sum) (lawful.lift ?_)
    have first : c.value w (.list head.toList) :=
      (hereditary_within.list _).mpr (hereditary_within.toList step)
    exact fun _ sum => hereditary_within.add first within sum
  | body body right => exact lawful.pure (value (by simpa using step))
  | close right =>
    refine lawful.after (lawful.actual step) fun p next => lawful.pure (value ?_)
    simpa using ⟨next, here⟩
  | operands operand operator rightmost =>
    refine lawful.after (lawful.actual step.2) fun p next => lawful.pure (value ?_)
    simpa using ⟨⟨next, step.1⟩, here⟩
  | fold rightmost first => exact lawful.foldOperands tracks rightmost step within
  | operand operand => exact lawful.pure (value (by simpa using ⟨step, here⟩))
  | pair operator => exact lawful.pure (value (by simpa using ⟨step, here⟩))
  | skipSpace => exact lawful.pure (value (by simpa using here))
  | wordRest => exact lawful.pure (value (by simpa using here))
  | wordJoin head => exact lawful.add step within
  | digits => exact lawful.pure (value (by simpa using here))
  | signed sign =>
    have minus : c.value w (.text ['-']) := trivial
    refine lawful.after (lawful.equal tracks.fuel step minus) fun negative _ => ?_
    refine lawful.look (P := c.value w) (Results.Local.runtime.map v.toInteger)
      (fun _ _ n read => hereditary_within.atom n (Value.isAtom_of_toInteger read))
      fun n whole => ?_
    refine ite (fun _ => ?_) fun _ => lawful.pure whole
    refine lawful.holds_of_steady (P := c.value w) (fun _ opposite => opposite) (lawful.lift ?_)
    exact fun u opposite => hereditary_within.atom u (Value.isAtom_of_negate opposite)
  | closure _ _ _ | primitive _ | adapted _ _ => exact lawful.raise _

/-- Functions compare, whether they are written in terms or not. -/
theorem applyCallback (tracks : c.Tracks ev E) {f : Callback} {arguments : List Value}
    (function : f.Within (c.bounds w)) (all : c.values w arguments) :
    c.holds w (ev.applyCallback f arguments) (fun m => (E m).applyCallback f arguments)
      c.value := by
  cases f with
  | closure parameters body scope =>
    refine lawful.after (lawful.lift fun locals bound =>
      Value.ScopeWithin.of_bindParameters function.1 all bound) fun locals bound => ?_
    exact tracks.eval w _ body (bound.append function.2)
  | primitive p =>
    simp only [Evaluator.applyCallback]
    split
    · exact lawful.add (all _ (by simp)) (all _ (by simp))
    · refine lawful.holds_of_steady (P := c.value w) (fun _ applied => applied) ?_
      exact lawful.observeStop (f := fun k results => Value.applyPrimitive results k p arguments)
        (fun n => Value.local_applyPrimitive n p all)
        (fun _ _ le => Value.sooner_applyPrimitive le p arguments) tracks.fuel
        fun _ store _ applied => hereditary_within.applyPrimitive store all applied
  | adapted callback count =>
    have given : c.value w (.tuple arguments) := (hereditary_within.tuple _).mpr all
    refine lawful.look (Value.local_slice given _ _ _)
      (fun _ store _ cut => hereditary_within.slice store given cut) fun taken kept => ?_
    cases taken with
    | tuple vs => exact tracks.call w callback vs function.1 ((hereditary_within.tuple vs).mp kept)
    | _ => exact lawful.raise _
  | _ =>
    simp only [Evaluator.applyCallback]
    split
    · exact lawful.applyStep tracks function (all _ List.mem_cons_self)
    · exact lawful.raise _

/-- Calls compare. -/
theorem apply (tracks : c.Tracks ev E) {f : Value} {arguments : List Value}
    (function : c.value w f) (all : c.values w arguments) :
    c.holds w (ev.apply f arguments) (fun m => (E m).apply f arguments) c.value := by
  cases f with
  | function callback => exact lawful.applyCallback tracks function all
  | kind k =>
    refine lawful.holds_of_steady (P := c.value w) (fun _ made => made) ?_
    exact lawful.observeStop (f := fun fuel results => Value.construct results fuel k arguments)
      (fun n => Value.local_construct n k all)
      (fun _ _ le => Value.sooner_construct le k arguments) tracks.fuel
      fun _ store _ made => hereditary_within.construct store all made
  | _ => exact lawful.raise _

end GrammarKit.Comparison.Lawful
