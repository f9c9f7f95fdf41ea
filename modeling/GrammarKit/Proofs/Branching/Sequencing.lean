import GrammarKit.Proofs.Branching.Separated

/-! # The laws of sequencing

A callback after a parser is called for each derivation, in their order, and what it gives is
evaluated on what the derivation left. So sequencing is a loop over derivations that joins lists,
and it obeys the laws of such loops: `result` on either side of it does nothing, and of two
sequencings it does not matter which one is put together first. The callbacks may look at the
remainder, take one argument or two, and give parsers or plain values.
-/

namespace GrammarKit

/-! ## Loops over derivations -/

/-- What comes after each of several derivations, joined in their order; the first error ends it. -/
def continued (after : Derivation → Except Error (List Derivation)) (ds : List Derivation) :
    Except Error (List Derivation) :=
  List.flatten <$> ds.mapM after

section

variable {after last : Derivation → Except Error (List Derivation)} {d : Derivation}
  {ds es fs : List Derivation}

theorem continued_nil : continued after [] = .ok [] := rfl

theorem continued_cons_eq_ok_iff : continued after (d :: ds) = .ok fs ↔
    ∃ here rest, after d = .ok here ∧ continued after ds = .ok rest ∧ here ++ rest = fs := by
  simp only [continued, List.mapM_cons, map_eq_pure_bind, bind_assoc, pure_bind,
    Except.bind_eq_ok_iff, List.flatten_cons]
  constructor
  · rintro ⟨here, first, others, found, joined⟩
    cases joined
    exact ⟨here, others.flatten, first, ⟨others, found, rfl⟩, rfl⟩
  · rintro ⟨here, _, first, ⟨others, found, flat⟩, rfl⟩
    cases flat
    exact ⟨here, first, others, found, rfl⟩

theorem continued_append_eq_ok_iff : continued after (ds ++ es) = .ok fs ↔
    ∃ here rest, continued after ds = .ok here ∧ continued after es = .ok rest ∧
      here ++ rest = fs := by
  induction ds generalizing fs with
  | nil =>
    constructor
    · intro whole
      exact ⟨[], fs, continued_nil, whole, rfl⟩
    · rintro ⟨_, _, nothing, rest, rfl⟩
      cases nothing
      exact rest
  | cons d ds ih =>
    simp only [List.cons_append, continued_cons_eq_ok_iff, ih]
    constructor
    · rintro ⟨here, _, first, ⟨others, rest, found, found', rfl⟩, rfl⟩
      exact ⟨here ++ others, rest, ⟨here, others, first, found, rfl⟩, found',
        List.append_assoc ..⟩
    · rintro ⟨_, rest, ⟨here, others, first, found, rfl⟩, found', rfl⟩
      exact ⟨here, others ++ rest, first, ⟨others, rest, found, found', rfl⟩,
        (List.append_assoc ..).symm⟩

/-- What a loop joins comes after one of the derivations. -/
theorem exists_of_mem_continued (found : continued after ds = .ok fs) (member : d ∈ fs) :
    ∃ e ∈ ds, ∃ here, after e = .ok here ∧ d ∈ here := by
  induction ds generalizing fs with
  | nil =>
    cases found
    cases member
  | cons e ds ih =>
    obtain ⟨here, rest, first, others, rfl⟩ := continued_cons_eq_ok_iff.mp found
    rcases List.mem_append.mp member with inside | later
    · exact ⟨e, List.mem_cons_self, here, first, inside⟩
    · obtain ⟨e', member', others'⟩ := ih others later
      exact ⟨e', List.mem_cons_of_mem _ member', others'⟩

/-- A loop that hands on every derivation as it is. -/
theorem continued_self (ds : List Derivation) : continued (fun d => .ok [d]) ds = .ok ds := by
  induction ds with
  | nil => exact continued_nil
  | cons d ds ih =>
    exact continued_cons_eq_ok_iff.mpr ⟨[d], ds, rfl, ih, rfl⟩

/-- A loop after a loop joins the same derivations, in the same order, as a loop of loops. -/
theorem continued_continued_eq_ok_iff : (continued after ds >>= continued last) = .ok fs ↔
    continued (fun d => after d >>= continued last) ds = .ok fs := by
  rw [Except.bind_eq_ok_iff]
  induction ds generalizing fs with
  | nil =>
    constructor
    · rintro ⟨_, nothing, whole⟩
      cases nothing
      exact whole
    · intro whole
      exact ⟨[], continued_nil, whole⟩
  | cons d ds ih =>
    simp only [continued_cons_eq_ok_iff, Except.bind_eq_ok_iff]
    constructor
    · rintro ⟨_, ⟨here, others, first, found, rfl⟩, whole⟩
      obtain ⟨left, right, inner, outer, joined⟩ := continued_append_eq_ok_iff.mp whole
      exact ⟨left, right, ⟨here, first, inner⟩, ih.mp ⟨others, found, outer⟩, joined⟩
    · rintro ⟨left, right, ⟨here, first, inner⟩, outer, joined⟩
      obtain ⟨others, found, outer⟩ := ih.mpr outer
      exact ⟨here ++ others, ⟨here, others, first, found, rfl⟩,
        continued_append_eq_ok_iff.mpr ⟨left, right, inner, outer, joined⟩⟩

end

/-! ## Callbacks after a parser -/

namespace Effects

variable {b : Effects} {p : Parser} {f x v rest : Value} {r : Except Error (List Derivation)}

/-- Whether a callback has a value after a derivation, and what this value, taken as a parser, comes
to on what the derivation left. -/
def Continues (b : Effects) (f : Value) (d : Derivation) (r : Except Error (List Derivation)) :
    Prop :=
  ∃ w, b.Gives f (f.received d.value d.remainder) (.ok w) ∧
    b.Yields (Parser.asParser w) d.remainder r

section

variable {next : Value} {ds : List Derivation}
  {after : Derivation → Except Error (List Derivation)}

/-- What comes after each derivation of a parser, joined in their order. -/
theorem yields_bind_of_settles (first : b.Yields p x (.ok ds))
    (continues : ∀ d ∈ ds, b.Settles (fun ev =>
      ev.continuation next d.value d.remainder >>= (ev.parse · d.remainder)) (after d)) :
    b.Yields (p.bind next (.bool false)) x (continued after ds) := by
  rw [← List.map_id ds] at first
  exact (produces_bind id ds after first continues).yields

/-- A callback after a parser: the loop over the derivations of the parser. -/
theorem yields_bind (callable : f.isCallable = true) (first : b.Yields p x (.ok ds))
    (next : ∀ d ∈ ds, b.Continues f d (after d)) :
    b.Yields (p.bind f (.bool false)) x (continued after ds) := by
  refine yields_bind_of_settles first fun d member => ?_
  obtain ⟨w, given, second⟩ := next d member
  exact (settles_continuation_of_gives callable given).bind second.settles

/-- A callback after the only derivation of a parser. -/
theorem yields_bind_only {w : Value} (callable : f.isCallable = true)
    (first : b.Yields p x (.ok [⟨v, rest⟩])) (given : b.Gives f (f.received v rest) (.ok w))
    (second : b.Yields (Parser.asParser w) rest r) : b.Yields (p.bind f (.bool false)) x r :=
  (produces_bind_only first
    ((settles_continuation_of_gives callable given).bind second.settles)).yields

/-- A callback after a parser that may have an error. -/
theorem yields_bind_all (callable : f.isCallable = true) (first : b.Yields p x r)
    (next : ∀ ds, r = .ok ds → ∀ d ∈ ds, b.Continues f d (after d)) :
    b.Yields (p.bind f (.bool false)) x (r >>= continued after) := by
  cases r with
  | ok ds => exact yields_bind callable first (next ds rfl)
  | error e => exact (produces_bind_error first).yields

end

end Effects

/-! ## The laws -/

/-- The function that makes `result` of a value. -/
def Callback.resulting : Callback :=
  .closure [⟨"v", .standard, none⟩] (.apply (.make .result) [.variable "v"]) []

/-- The function that passes a value and a remainder on to `f`, as far as this takes them, and has
what this gives followed by `g`. -/
def Callback.following (f g : Value) : Callback :=
  .closure [⟨"v", .standard, none⟩, ⟨"r", .standard, none⟩]
    (.apply (.method .andThen)
      [.apply (.make .asParser)
        [.apply (.operator .call)
          (.variable "f" :: ([.variable "v", .variable "r"] : List Term).take (f.arity 2))],
        .variable "g"])
    [("f", f), ("g", g)]

/-- A callback receives no more arguments than there are. -/
theorem Value.arity_le (f : Value) (limit : Nat) : f.arity limit ≤ limit := by
  unfold arity
  split
  · omega
  · exact Nat.le_refl _
  · omega

namespace Effects

section

variable {b : Effects} {scope : Scope} {t : Term} {ts : List Term} {v : Value} {vs : List Value}

/-- The value of a local variable. -/
theorem settles_variable {name : String} (bound : scope.lookup name = some v) :
    b.Settles (fun ev => ev.eval scope (.variable name)) (.ok v) := by
  refine Settles.of_deep 1 fun n s => ?_
  change Evaluator.lookUp scope name s = _
  rw [Evaluator.lookUp, bound]
  rfl

theorem settles_evalAll_nil : b.Settles (fun ev => ev.evalAll scope []) (.ok []) :=
  Settles.lift (.ok [])

/-- Arguments are evaluated in their order. -/
theorem settles_evalAll_cons (first : b.Settles (fun ev => ev.eval scope t) (.ok v))
    (others : b.Settles (fun ev => ev.evalAll scope ts) (.ok vs)) :
    b.Settles (fun ev => ev.evalAll scope (t :: ts)) (.ok (v :: vs)) :=
  first.bind (others.bind (Settles.lift (.ok (v :: vs))))

/-- An operation is applied to the values of its arguments. -/
theorem settles_operation (operation : Operation) {r : Except Error Value}
    (arguments : b.Settles (fun ev => ev.evalAll scope ts) (.ok vs))
    (applied : b.Settles (fun ev => ev.applyOperation operation vs) r) :
    b.Settles (fun ev => ev.eval scope (.apply operation ts)) r :=
  Settles.deeper (arguments.bind applied) fun _ => rfl

end

variable {b : Effects} {p : Parser} {f g x v w rest : Value}

theorem gives_resulting (v : Value) :
    b.Gives (.function .resulting) [v] (.ok (.parser (.result v))) :=
  Settles.of_deep 4 fun _ _ => rfl

/-- The arguments for `f` are taken from those that the function itself received. -/
theorem settles_evalAll_received (f g v rest : Value) :
    b.Settles (fun ev => ev.evalAll [("v", v), ("r", rest), ("f", f), ("g", g)]
      (([.variable "v", .variable "r"] : List Term).take (f.arity 2)))
      (.ok (f.received v rest)) := by
  have most := f.arity_le 2
  rw [Value.received]
  generalize f.arity 2 = count at most ⊢
  obtain rfl | rfl | rfl : count = 0 ∨ count = 1 ∨ count = 2 := by omega
  · exact settles_evalAll_nil
  · exact settles_evalAll_cons (settles_variable rfl) settles_evalAll_nil
  · exact settles_evalAll_cons (settles_variable rfl)
      (settles_evalAll_cons (settles_variable rfl) settles_evalAll_nil)

theorem gives_following (callable : g.isCallable = true)
    (given : b.Gives f (f.received v rest) (.ok w)) :
    b.Gives (.function (.following f g)) [v, rest]
      (.ok (.parser ((Parser.asParser w).bind g (.bool false)))) := by
  let scope : Scope := [("v", v), ("r", rest), ("f", f), ("g", g)]
  have inner : b.Settles (fun ev => ev.eval scope (.variable "f")) (.ok f) :=
    settles_variable rfl
  have outer : b.Settles (fun ev => ev.eval scope (.variable "g")) (.ok g) :=
    settles_variable rfl
  have called := settles_operation (.operator .call)
    (settles_evalAll_cons inner (settles_evalAll_received f g v rest)) given
  have coerced := settles_operation (.make .asParser)
    (settles_evalAll_cons called settles_evalAll_nil)
    (Settles.lift (.ok (Value.parser (Parser.asParser w))))
  have sequenced : b.Settles (fun ev => ev.applyOperation (.method .andThen)
      [.parser (Parser.asParser w), g])
      (.ok (.parser ((Parser.asParser w).bind g (.bool false)))) := by
    cases g with
    | function _ | kind _ => exact Settles.lift (.ok _)
    | _ => cases callable
  have body := settles_operation (.method .andThen) (settles_evalAll_cons coerced
    (settles_evalAll_cons outer settles_evalAll_nil)) sequenced
  exact .of_apply (body.congr fun _ _ _ => rfl)

variable {after last : Derivation → Except Error (List Derivation)} {ds : List Derivation}

/-- Making `result` of every value changes nothing. -/
theorem yields_bind_resulting (first : b.Yields p x (.ok ds))
    (given : ∀ d ∈ ds, d.value ≠ .missing) (shown : ∀ d ∈ ds, b.Shows d.value)
    (read : ∀ d ∈ ds, b.Shows d.remainder) :
    b.Yields (p.step .resulting) x (.ok ds) := by
  have each : ∀ d ∈ ds, b.Continues (.function .resulting) d (.ok [d]) := fun d member =>
    ⟨.parser (.result d.value), gives_resulting d.value,
      yields_result (shown d member) (read d member) (given d member)⟩
  have whole := yields_bind rfl first each
  rwa [continued_self] at whole

/-- After `result` of a value comes what the callback makes of the value. -/
theorem yields_result_bind (callable : f.isCallable = true) (given : v ≠ .missing)
    (shown : b.Shows v) {r : Except Error (List Derivation)} (next : b.Continues f ⟨v, x⟩ r) :
    b.Yields ((Parser.result v).bind f (.bool false)) x r := by
  obtain ⟨w, gives, second⟩ := next
  exact yields_bind_only callable (yields_result shown second.read given) gives second

/-- One callback after a parser and another one after both. -/
theorem yields_bind_bind (callable : f.isCallable = true) (callable' : g.isCallable = true)
    (first : b.Yields p x (.ok ds)) (next : ∀ d ∈ ds, b.Continues f d (after d))
    (next' : ∀ d ∈ ds, ∀ es, after d = .ok es → ∀ e ∈ es, b.Continues g e (last e)) :
    b.Yields ((p.bind f (.bool false)).bind g (.bool false)) x
      (continued after ds >>= continued last) := by
  refine yields_bind_all callable' (yields_bind callable first next) fun fs found e member => ?_
  obtain ⟨d, inside, es, here, member⟩ := exists_of_mem_continued found member
  exact next' d inside es here e member

/-- A callback after a parser, in which another one comes after what it gives. -/
theorem yields_bind_following (callable : g.isCallable = true)
    (first : b.Yields p x (.ok ds)) (next : ∀ d ∈ ds, b.Continues f d (after d))
    (next' : ∀ d ∈ ds, ∀ es, after d = .ok es → ∀ e ∈ es, b.Continues g e (last e)) :
    b.Yields (p.step (.following f g)) x
      (continued (fun d => after d >>= continued last) ds) := by
  refine yields_bind rfl first fun d member => ?_
  obtain ⟨w, given, second⟩ := next d member
  exact ⟨_, gives_following callable given, yields_bind_all callable second (next' d member)⟩

/-- The laws of sequencing, for callbacks that may look at the remainder and give parsers or plain
values. Making `result` of every value changes nothing, and neither does beginning with `result`.
Two callbacks after a parser, one after the other, have the derivations, in the same order, of the
one callback in which the second one comes after the first. -/
theorem bind_obeys_laws (b : Effects) :
    (∀ p x ds, b.Yields p x (.ok ds) →
      (∀ d ∈ ds, d.value ≠ .missing ∧ b.Shows d.value ∧ b.Shows d.remainder) →
        b.Yields (p.step .resulting) x (.ok ds)) ∧
    (∀ f v x w r, f.isCallable = true → v ≠ .missing → b.Shows v →
      b.Gives f (f.received v x) (.ok w) → b.Yields (Parser.asParser w) x r →
        b.Yields ((Parser.result v).bind f (.bool false)) x r) ∧
    ∀ (p : Parser) (f g x : Value) (ds : List Derivation)
      (after last : Derivation → Except Error (List Derivation)),
      f.isCallable = true → g.isCallable = true → b.Yields p x (.ok ds) →
      (∀ d ∈ ds, b.Continues f d (after d)) →
      (∀ d ∈ ds, ∀ es, after d = .ok es → ∀ e ∈ es, b.Continues g e (last e)) →
        b.Yields ((p.bind f (.bool false)).bind g (.bool false)) x
          (continued after ds >>= continued last) ∧
        b.Yields (p.step (.following f g)) x
          (continued (fun d => after d >>= continued last) ds) ∧
        ∀ fs, (continued after ds >>= continued last) = .ok fs ↔
          continued (fun d => after d >>= continued last) ds = .ok fs := by
  refine ⟨fun p x ds first given => ?_, fun f v x w r callable given shown gives second => ?_,
    fun p f g x ds after last callable callable' first next next' => ⟨?_, ?_, fun fs => ?_⟩⟩
  · exact yields_bind_resulting first (fun d member => (given d member).1)
      (fun d member => (given d member).2.1) fun d member => (given d member).2.2
  · exact yields_result_bind callable given shown ⟨w, gives, second⟩
  · exact yields_bind_bind callable callable' first next next'
  · exact yields_bind_following callable' first next next'
  · exact continued_continued_eq_ok_iff

end Effects

/-- A function of a value and a remainder that makes a parser, for one character or two. -/
def Callback.splitting : Callback :=
  .closure [⟨"v", .standard, none⟩, ⟨"r", .standard, none⟩]
    (.apply (.make .splits) [.literal (.int 1), .literal (.int 2)]) []

/-- Three ways to read a text by one or two characters and then again by one or two, where the
second reading is put in a list, whichever way the callbacks are nested. -/
theorem bind_obeys_laws_splits :
    (Effects.messages Store.initial).Yields
      (((Parser.ofShape (.splits [.int 1, .int 2])).step .splitting).step Parser.listing)
      (.text ['a', 'b', 'c'])
      (.ok [⟨.list [.text ['b']], .text ['c']⟩, ⟨.list [.text ['b', 'c']], .text []⟩,
        ⟨.list [.text ['c']], .text []⟩]) ∧
    (Effects.messages Store.initial).Yields
      ((Parser.ofShape (.splits [.int 1, .int 2])).step
        (.following (.function .splitting) (.function Parser.listing))) (.text ['a', 'b', 'c'])
      (.ok [⟨.list [.text ['b']], .text ['c']⟩, ⟨.list [.text ['b', 'c']], .text []⟩,
        ⟨.list [.text ['c']], .text []⟩]) := by
  have splits : (Effects.messages Store.initial).Enumerates Parser.endsOfAbc Parser.endsOfAbc
    (.ofShape (.splits [.int 1, .int 2])) Parser.oneOrTwo := Effects.enumerates_oneOrTwo rfl
  have input : Parser.endsOfAbc (.text ['a', 'b', 'c']) := .inl rfl
  have next : ∀ d ∈ Parser.oneOrTwo (.text ['a', 'b', 'c']),
      (Effects.messages Store.initial).Continues (.function .splitting) d
        (.ok (Parser.oneOrTwo d.remainder)) := fun d member =>
    ⟨.parser (.ofShape (.splits [.int 1, .int 2])), Effects.Settles.of_deep 4 fun _ _ => rfl,
      splits.yields _ (splits.leaves _ input d member)⟩
  have next' (e : Derivation) : (Effects.messages Store.initial).Continues
      (.function Parser.listing) e (.ok [⟨.list [e.value], e.remainder⟩]) :=
    ⟨.list [e.value], Parser.gives_listing e.value,
      Effects.yields_result (.of_quiet rfl) (.of_quiet rfl) (by nofun)⟩
  obtain ⟨-, -, associates⟩ := Effects.bind_obeys_laws (Effects.messages Store.initial)
  obtain ⟨inner, outer, -⟩ := associates _ _ _ _ _ _ _ rfl rfl (splits.yields _ input) next
    fun _ _ _ _ e _ => next' e
  exact ⟨inner, outer⟩

end GrammarKit
