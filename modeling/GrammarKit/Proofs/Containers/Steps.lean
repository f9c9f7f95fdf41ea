import GrammarKit.Proofs.Containers.Repetition

/-! # Steps between uniform parsers

After each reading the library's combinators take a step that depends on the value alone. For an
ordinary value such a step is an error, or gives a parser that is uniform again, or an ordinary
value. There is one lemma for each step, and from it one for the combinator that takes it.
-/

namespace GrammarKit.Effects

variable {b : Effects} {p q op left right : Parser} {f u v w x : Value} {limit : Nat}
  {cs : List Char}

/-- Whether an evaluation concludes with something to go on with: a parser that is uniform on
strings of less than `limit` characters, or an ordinary value. -/
abbrev Resumes (b : Effects) (limit : Nat) (m : Evaluator → Eval Value) : Prop :=
  b.Concludes (fun w => b.UniformBelow limit (Parser.asParser w)) m

theorem Concludes.resumes {m : Evaluator → Eval Value}
    (concludes : b.Concludes Value.IsOrdinary m) : b.Resumes limit m :=
  Alike.mono concludes fun _ ordinary => uniform_asParser ordinary

/-- The steps of the library's combinators are applied to one value. -/
theorem Concludes.of_step {f : Callback} {P : Value → Prop}
    (step : ∀ ev : Evaluator, ev.applyCallback f [v] = ev.applyStep f v)
    (applied : b.Concludes P fun ev => ev.applyStep f v) :
    b.Concludes P fun ev => ev.call (.function f) [v] := by
  refine Alike.deeper applied fun _ n => ?_
  change (evaluator n).apply (.function f) [v] = _
  rw [Evaluator.apply, step]

theorem Follows.of_step {f : Callback} (unary : (Value.function f).arity 2 = 1)
    (step : ∀ (ev : Evaluator) v, ev.applyCallback f [v] = ev.applyStep f v)
    (applied : ∀ v, v.IsOrdinary → b.Resumes limit fun ev => ev.applyStep f v) :
    b.Follows limit (.function f) :=
  follows_step unary fun v ordinary => .of_step (step · v) (applied v ordinary)

/-- After a constant nothing else is looked at. -/
theorem follows_constant (ordinary : v.IsOrdinary) : b.Follows limit (.function (.constant v)) :=
  .of_step rfl (fun _ _ => rfl) fun _ _ => .resumes (.pure ordinary)

/-! ## Tests -/

theorem concludes_truth (ordinary : v.IsOrdinary) :
    b.Concludes (fun _ => True) fun _ => Evaluator.truth v :=
  Alike.readResults_bind (Concludes.pure (a := v.truth {}) trivial) fun _ _ results _ => by
    rw [ordinary.truth_eq]

/-- Comparing with a text has an end, whatever is compared with it. -/
theorem concludes_equal (v : Value) (expected : List Char) :
    b.Concludes (fun _ => True) fun ev => ev.equal v (.text expected) :=
  .of_settles (settles_equal (Equates.of_isScalar b (w := .text expected) trivial v))
    fun _ _ => trivial

/-- A test that concludes with an ordinary value. -/
theorem follows_test {condition : Value} (tested : ∀ v, v.IsOrdinary →
    b.Concludes Value.IsOrdinary fun ev => ev.call condition [v]) :
    b.Follows limit (.function (.test condition)) := by
  refine .of_step rfl (fun _ _ => rfl) fun v ordinary => ?_
  refine (tested v ordinary).bind fun w answer => (concludes_truth answer).bind fun h _ => ?_
  cases h with
  | true => exact Concludes.pure (uniform_asParser ordinary)
  | false => exact Concludes.pure fun cs _ => uniform_zero cs _

theorem concludes_isMember {members : List Value} (ordinary : v.IsOrdinary)
    (texts : ∀ w ∈ members, ∃ cs, w = .text cs) :
    b.Concludes (fun _ => True) fun ev => ev.isMember v members := by
  unfold Evaluator.isMember
  split
  · obtain ⟨h, told⟩ := ordinary.exists_anyEqual texts
    refine Alike.readResults_bind (Concludes.pure (a := h) trivial) fun _ n results _ => ?_
    rw [told]
    rfl
  · exact .raise _

/-- One character that is among others, or is not. -/
theorem uniform_oneOf {members : List Value} (texts : ∀ w ∈ members, ∃ cs, w = .text cs)
    (inside : Bool) (cs : List Char) : b.Uniform (.oneOf members inside) cs cs.length := by
  refine (uniform_item cs).bind (follows_test fun v ordinary => .of_step (fun _ => rfl) ?_)
  exact (concludes_isMember ordinary texts).bind fun h _ => Concludes.pure (.bool _)

theorem follows_equals (expected : List Char) :
    b.Follows limit (.function (.test (.function (.equals (.text expected))))) := by
  refine follows_test fun v ordinary => ?_
  refine .of_settles (gives_equals (Equates.of_isScalar b (w := .text expected) trivial v)) ?_
  rintro _ ⟨⟩
  exact .bool _

/-- One character that equals a text. -/
theorem uniform_char (expected shown cs : List Char) :
    b.Uniform (.char (.text expected) shown) cs cs.length :=
  ((uniform_item cs).bind (follows_equals expected)).named rfl rfl _

/-! ## Characters and words -/

theorem uniformBelow_oneOf {members : List Value} (texts : ∀ w ∈ members, ∃ cs, w = .text cs)
    (inside : Bool) : b.UniformBelow limit (.oneOf members inside) :=
  fun cs _ => (uniform_oneOf texts inside cs).mono (Nat.le_succ _)

theorem uniformBelow_char (expected shown : List Char) :
    b.UniformBelow limit (.char (.text expected) shown) :=
  fun cs _ => (uniform_char expected shown cs).mono (Nat.le_succ _)

theorem exists_of_mem_values (a : Alphabet) : ∀ w ∈ a.values, ∃ cs, w = .text cs :=
  List.forall_mem_map.mpr fun c _ => ⟨[c], rfl⟩

theorem uniform_whitespace : b.UniformBelow limit .whitespace :=
  ((uniformBelow_oneOf (exists_of_mem_values _) true).manyOrNone .text (absurd rfl)).named rfl rfl _

theorem uniform_letter : b.UniformBelow limit .letter :=
  (uniformBelow_oneOf (exists_of_mem_values _) true).named rfl rfl _

/-- Whitespace is skipped after a token. -/
theorem Uniform.token (uniform : b.Uniform p cs limit) : b.Uniform p.token cs limit :=
  uniform.bind (.of_step rfl (fun _ _ => rfl) fun _ ordinary =>
    Concludes.pure (uniform_whitespace.bind (follows_constant ordinary)))

theorem concludes_add (first : v.IsOrdinary) (second : w.IsOrdinary) :
    b.Concludes Value.IsOrdinary fun _ => Evaluator.add v w := by
  have same : Evaluator.add v w = liftM (v.add w) := by cases first <;> rfl
  rw [same]
  exact .lift fun u sum => first.of_add second sum

theorem uniform_identifier : b.UniformBelow limit .identifier := by
  have texts : ∀ w ∈ Value.text ['_'] :: Alphabet.alphanumeric.values, ∃ cs, w = .text cs :=
    List.forall_mem_cons.mpr ⟨⟨_, rfl⟩, exists_of_mem_values _⟩
  have first : b.UniformBelow limit (Parser.letter.orElse [.parser (.charText ['_'])]) :=
    uniform_letter.orElse (List.forall_mem_singleton.mpr (uniformBelow_char _ _))
  refine UniformBelow.named (first.bind (.of_step rfl (fun _ _ => rfl) fun v head => ?_)) rfl rfl _
  refine Concludes.pure (((uniformBelow_oneOf texts true).manyOrNone .text (absurd rfl)).bind ?_)
  exact .of_step rfl (fun _ _ => rfl) fun w tail => (concludes_add head tail).resumes

/-! ## Numbers -/

/-- A value is read as a whole number by the same runtime wherever the evaluation starts. -/
theorem concludes_toInteger (v : Value) : b.Concludes (fun w => ∃ n, w = .int n) fun _ =>
    Store.readResults >>= fun results => liftM (v.toInteger results.runtime) := by
  have read : b.Concludes (fun w => ∃ n, w = .int n) fun _ => liftM (v.toInteger b.runtime) :=
    .lift fun _ => Value.IsOrdinary.of_toInteger
  refine read.readResults_bind fun _ _ results ran => ?_
  rw [ran]

/-- The function that reads whole numbers. -/
theorem maps_integer : b.Maps (.kind .integer) := by
  intro v _
  refine Alike.deeper (m := fun _ ev => ev.apply (.kind .integer) [v]) ?_ fun _ _ => rfl
  have ordinary := (concludes_toInteger (b := b) v).mono (Q := Value.IsOrdinary)
    (by rintro _ ⟨n, rfl⟩; exact .int n)
  refine ordinary.congr fun _ n s _ => ?_
  exact congrFun (Eval.lift_lift (v.toInteger s.results.runtime)) s

/-- The function that gives the magnitudes of numbers. -/
theorem maps_magnitude : b.Maps (.function (.primitive .magnitude)) := by
  intro v _
  refine Alike.deeper (m := fun _ ev => ev.apply (.function (.primitive .magnitude)) [v]) ?_
    fun _ _ => rfl
  have made : b.Concludes Value.IsOrdinary fun _ => liftM v.magnitude := .lift fun w made => by
    obtain ⟨n, _, made⟩ := Except.bind_eq_ok_iff.mp made
    cases made
    exact .ofNumber n.magnitude
  exact made.readResults_bind fun _ _ _ _ => Eval.lift_lift v.magnitude

theorem uniform_digit : b.UniformBelow limit .digit := by
  intro cs _
  have found := (uniform_oneOf (b := b) (exists_of_mem_values .decimal) true cs).produces
  have unmapped : (Parser.oneOf Alphabet.decimal.values true).mapping = none := rfl
  refine ⟨.of_parts (Value.shownBy_named rfl) (List.forall_mem_nil _), rfl, ?_⟩
  refine (found.bind fun readings within => reads_mapValues maps_integer
    readings fun reading member => (within reading member).mono (Nat.le_succ _)).congr
      fun c n s _ => ?_
  rw [Evaluator.produce_of_mapping_eq_none unmapped]
  rfl

/-- A number of the given sign. -/
theorem follows_signed (sign : Value) : b.Follows limit (.function (.signed sign)) := by
  refine .of_step rfl (fun _ _ => rfl) fun v _ => ?_
  refine (concludes_equal sign ['-']).bind fun negative _ => (concludes_toInteger v).bind ?_
  rintro _ ⟨n, rfl⟩
  cases negative with
  | true => exact Concludes.pure (uniform_asParser (.int (-n)))
  | false => exact Concludes.pure (uniform_asParser (.int n))

theorem uniform_integer : b.UniformBelow limit .integer := by
  have sign : b.UniformBelow limit
      ((Parser.oneOf Alphabet.signs.values true).orElse [.text []]) :=
    (uniformBelow_oneOf (exists_of_mem_values _) true).orElse
      (List.forall_mem_singleton.mpr (uniform_asParser (.text [])))
  refine UniformBelow.named (sign.bind (.of_step rfl (fun _ _ => rfl) fun v _ => ?_)) rfl rfl _
  exact Concludes.pure
    (((uniformBelow_oneOf (exists_of_mem_values _) true).many .text).bind (follows_signed v))

/-! ## Literal texts -/

/-- Whether what has been joined is the whole. -/
theorem follows_spellJoin (expected : List Char) (short : Bool) (head : v.IsOrdinary) :
    b.Follows limit (.function (.spellJoin (.text expected) (.bool short) v)) := by
  refine .of_step rfl (fun _ _ => rfl) fun w tail => ?_
  refine (concludes_add head tail).bind fun matched ordinary => ?_
  refine (concludes_truth (.bool short)).bind fun enough _ => ?_
  cases enough with
  | true => exact Concludes.pure (uniform_asParser ordinary)
  | false =>
    refine (concludes_equal matched expected).bind fun whole _ => ?_
    cases whole with
    | true => exact Concludes.pure (uniform_asParser (.text expected))
    | false => exact Concludes.pure fun cs _ => uniform_zero cs _

/-- The characters of a text are matched one by one. -/
theorem UniformBelow.speller (uniform : b.UniformBelow limit p) (expected : List Char)
    (short : Bool) : b.UniformBelow limit (p.speller (.text expected) (.bool short)) := by
  induction expected with
  | nil => exact fun cs _ => uniform_zero cs _
  | cons c expected ih =>
    refine (uniform.bind (follows_equals [c])).bind (follows_step rfl fun v head => ?_)
    have text : (Value.text (c :: expected)).IsSequence := trivial
    refine .of_settles (gives_spellRest text (.bool short) v) ?_
    rintro _ ⟨⟩
    exact ih.bind_always (follows_spellJoin (c :: expected) short head)

/-! ## Brackets and lists -/

theorem concludes_actual (uniform : b.UniformBelow limit p) :
    b.Concludes (b.UniformBelow limit) fun _ => Evaluator.actual p := by
  unfold Evaluator.actual
  split
  · exact .raise _
  · exact .pure uniform

theorem follows_body (body : b.UniformBelow limit p) (right' : b.UniformBelow limit right) :
    b.Follows limit (.function (.body p right)) := by
  refine .of_step rfl (fun _ _ => rfl) fun _ _ => Concludes.pure (body.bind ?_)
  refine .of_step rfl (fun _ _ => rfl) fun v ordinary => ?_
  exact (concludes_actual right').bind fun q closing =>
    Concludes.pure (closing.bind (follows_constant ordinary))

theorem UniformBelow.between (body : b.UniformBelow limit p) (left' : b.UniformBelow limit left)
    (right' : b.UniformBelow limit right) : b.UniformBelow limit (p.between left right) :=
  left'.bind (follows_body body right')

theorem UniformBelow.sepBy (element : b.UniformBelow limit p) (separator : b.UniformBelow limit q)
    (other : b.UniformBelow limit (Parser.asParser v)) : b.UniformBelow limit (p.sepBy q v) := by
  refine UniformBelow.orElse (element.bind ?_) (List.forall_mem_singleton.mpr other)
  refine .of_step rfl (fun _ _ => rfl) fun head first => ?_
  have following : b.UniformBelow limit ((q.bind (.parser p) (.bool false)).manyOrNone .missing
      .sequence) := (separator.bind element.follows).manyOrNone _ (absurd rfl)
  refine Concludes.pure (following.bind (.of_step rfl (fun _ _ => rfl) fun tail others => ?_))
  have heads : (Value.list head.toList).IsOrdinary := .list first.of_toList
  exact Concludes.resumes (.lift fun _ sum => heads.of_add others sum)

/-! ## Chains -/

/-- What is called with two operands is an operator, or that is an error. -/
theorem concludes_call (function : f.IsOrdinary) (first : v.IsOrdinary) (second : w.IsOrdinary) :
    b.Concludes Value.IsOrdinary fun ev => ev.call f [v, w] := by
  refine Alike.deeper (m := fun _ ev => ev.apply f [v, w]) ?_ fun _ _ => rfl
  cases function with
  | operator o =>
    have applied : b.Concludes Value.IsOrdinary fun _ => liftM (o.apply v w) :=
      .lift fun u value => first.of_apply second value
    cases o with
    | add => exact concludes_add first second
    | _ => exact applied.readResults_bind fun _ n results _ => Eval.lift_lift _
  | _ => exact .raise _

/-- What is made of the items of an ordinary value. -/
theorem concludes_items_bind {α : Type} {P : α → Prop} {k : Evaluator → List Value → Eval α}
    (ordinary : v.IsOrdinary)
    (next : ∀ vs, (∀ w ∈ vs, w.IsOrdinary) → b.Concludes P fun ev => k ev vs) :
    b.Concludes P fun ev => Store.readResults >>= fun results =>
      liftM (v.items results) >>= k ev := by
  have items : b.Concludes (fun vs => ∀ w ∈ vs, w.IsOrdinary) fun _ => liftM (v.items {}) :=
    .lift fun _ => ordinary.of_items
  refine (items.bind next).readResults_bind fun _ _ results _ => ?_
  rw [ordinary.items_eq results]

theorem concludes_itemOf (ordinary : v.IsOrdinary) (i : Int) :
    b.Concludes Value.IsOrdinary fun _ => Evaluator.itemOf v i :=
  Alike.readResults_bind (Concludes.lift fun _ => ordinary.of_index) fun _ _ results _ =>
    congrArg liftM (ordinary.index_eq results (.int i))

theorem concludes_foldStep (first : x.IsOrdinary) (ordinary : v.IsOrdinary) :
    b.Concludes Value.IsOrdinary fun ev => ev.foldStep x v := by
  have pair : b.Concludes (fun pair => pair.1.IsOrdinary ∧ pair.2.IsOrdinary)
      fun _ => Store.readResults >>= fun results => liftM (v.unpair results) :=
    Alike.readResults_bind (Concludes.lift fun _ => ordinary.of_unpair) fun _ _ results _ =>
      congrArg liftM (ordinary.unpair_eq results)
  exact (pair.bind fun pair both => concludes_call both.1 first both.2).congr fun _ _ _ _ => rfl

theorem concludes_foldLeft (steps : List Value) (all : ∀ v ∈ steps, v.IsOrdinary)
    (first : x.IsOrdinary) : b.Concludes Value.IsOrdinary fun ev => ev.foldLeft x steps := by
  induction steps generalizing x with
  | nil => exact .pure first
  | cons step steps ih =>
    obtain ⟨here, others⟩ := List.forall_mem_cons.mp all
    exact (concludes_foldStep first here).bind fun y next => ih others next

theorem concludes_foldRight (backwards : List Value) (all : ∀ v ∈ backwards, v.IsOrdinary)
    (first : x.IsOrdinary) (last : u.IsOrdinary) :
    b.Concludes Value.IsOrdinary fun ev => ev.foldRight x u backwards := by
  induction backwards generalizing u with
  | nil => exact .pure last
  | cons step before ih =>
    obtain ⟨here, others⟩ := List.forall_mem_cons.mp all
    refine (concludes_itemOf here 0).bind fun f function => ?_
    -- The operand that the operator meets is that of the step before it, if there is one.
    cases before with
    | nil => exact (concludes_call function first last).bind fun w next => ih others next
    | cons previous before =>
      refine (concludes_itemOf (others previous List.mem_cons_self) 1).bind fun y operand => ?_
      exact (concludes_call function operand last).bind fun w next => ih others next

theorem concludes_foldOperands (rightmost : Bool) (first : x.IsOrdinary) (steps : v.IsOrdinary) :
    b.Concludes Value.IsOrdinary fun ev => ev.foldOperands rightmost x v := by
  cases rightmost with
  | true =>
    refine (concludes_truth steps).bind fun some_ _ => ?_
    cases some_ with
    | false => exact .pure first
    | true =>
      refine concludes_items_bind steps fun vs all => ?_
      have backwards : ∀ w ∈ vs.reverse, w.IsOrdinary := fun w member =>
        all w (List.mem_reverse.mp member)
      cases same : vs.reverse with
      | nil => exact .pure first
      | cons last before =>
        rw [same] at backwards
        refine (concludes_itemOf (backwards last List.mem_cons_self) 1).bind fun y operand => ?_
        exact concludes_foldRight _ backwards first operand
  | false =>
    have folded := concludes_items_bind (k := fun ev => ev.foldLeft x) steps fun vs all =>
      concludes_foldLeft (b := b) vs all first
    refine folded.congr fun _ _ _ _ => ?_
    cases steps <;> rfl

/-- Operators, each with an operand after it. -/
theorem UniformBelow.operatorPairs (operand : b.UniformBelow limit p)
    (operator : b.UniformBelow limit op) : b.UniformBelow limit (p.operatorPairs op) := by
  refine UniformBelow.manyOrNone (operator.bind ?_) .sequence (absurd rfl)
  refine .of_step rfl (fun _ _ => rfl) fun f function => Concludes.pure (operand.bind ?_)
  refine .of_step rfl (fun _ _ => rfl) fun y second => Concludes.pure fun cs _ => ?_
  exact uniform_result (.tuple (by simp [function, second])) cs

theorem UniformBelow.chain (operand : b.UniformBelow limit p) (operator : b.UniformBelow limit op)
    (rightmost : Bool) {fallback : Value}
    (other : fallback ≠ .missing → b.UniformBelow limit (Parser.asParser fallback)) :
    b.UniformBelow limit (p.chain op rightmost fallback) := by
  have folded : b.UniformBelow limit (p.step (.operands p op rightmost)) := by
    refine operand.bind (.of_step rfl (fun _ _ => rfl) fun x first => ?_)
    refine (concludes_actual operator).bind fun q operator' => ?_
    refine Concludes.pure ((operand.operatorPairs operator').bind ?_)
    exact .of_step rfl (fun _ _ => rfl) fun steps gathered =>
      (concludes_foldOperands rightmost first gathered).resumes
  cases fallback with
  | missing => exact folded
  | _ => exact folded.orElse (List.forall_mem_singleton.mpr (other (by nofun)))

end GrammarKit.Effects
