import GrammarKit.Proofs.Branching.EndOfInput
import GrammarKit.Proofs.Effects.Equality

/-! # Membership

Parsers for one item inside or outside a set. Values that can be members of a set nest only through
tuples, never through the store, so every comparison of two of them comes to an end, and it depends
on the runtime alone, not on the result lists. On an item that could itself be a member, exactly one
of the two parsers succeeds; on every other item both of them raise an error, although such an item
equals no member.
-/

namespace GrammarKit

namespace Value

/-! ## Comparing members of sets -/

/-- Whether from some depth on the comparison of two values comes to `h`, whatever the result lists
are. -/
def ComparesTo (runtime : Runtime) (v w : Value) (h : Bool) : Prop :=
  Deep fun n => ∀ results, results.runtime = runtime → equal results n v w = .ok h

theorem ComparesTo.unique {runtime : Runtime} {v w : Value} {h h' : Bool}
    (first : ComparesTo runtime v w h) (second : ComparesTo runtime v w h') : h = h' := by
  obtain ⟨depth, ends⟩ := first.both second fun n here there =>
    And.intro (here { runtime := runtime } rfl) (there { runtime := runtime } rfl)
  obtain ⟨here, there⟩ := ends depth (Nat.le_refl _)
  exact Except.ok.inj (here.symm.trans there)

theorem allHashable_iff (vs : List Value) :
    allHashable vs = true ↔ ∀ v ∈ vs, v.hashable = true := by
  induction vs with
  | nil => simp [allHashable]
  | cons v vs ih => simp [allHashable, ih]

/-- What a member of a set holds could be a member as well, and is smaller. -/
theorem hashable_of_mem_tuple? {v u : Value} {vs : List Value} (hashable : v.hashable = true)
    (items : v.tuple? = some vs) (member : u ∈ vs) :
    u.hashable = true ∧ sizeOf u < sizeOf v := by
  cases v with
  | tuple us =>
    obtain rfl := Option.some.inj items
    have smaller := List.sizeOf_lt_of_mem member
    rw [Value.hashable] at hashable
    refine ⟨(allHashable_iff us).mp hashable u member, ?_⟩
    simp only [Value.tuple.sizeOf_spec]
    omega
  | derivation a b =>
    cases items
    rw [Value.hashable, Bool.and_eq_true] at hashable
    simp only [Value.derivation.sizeOf_spec]
    rcases List.mem_pair.mp member with rfl | rfl
    · exact ⟨hashable.1, by omega⟩
    · exact ⟨hashable.2, by omega⟩
  | _ => cases items

/-- With a tuple, members of sets are compared item by item, if they are tuples. -/
theorem equalWith_of_tuple? {v w : Value} {vs : List Value} (items : v.tuple? = some vs)
    (hashable : w.hashable = true) (inner : Value → Value → Except Stop Bool)
    (results : Results) :
    equalWith inner results w v = match w.tuple? with
      | some ws => equalItems inner ws vs
      | Option.none => .ok false := by
  cases v with
  | tuple us | derivation a b =>
    cases items
    cases w with
    | list _ | result _ => cases hashable
    | _ => rfl
  | _ => cases items

/-- Items that compare are compared as items as well. -/
theorem orSame_eq_ok {results : Results} {inner : Value → Value → Except Stop Bool} {v w : Value}
    {h : Bool} (same : inner v w = .ok h) :
    orSame results inner v w = .ok (results.runtime.same v w || h) := by
  rw [orSame, same]
  cases results.runtime.same v w <;> rfl

theorem exists_orSame_comparesTo {runtime : Runtime} {v w : Value}
    (compares : ∃ h, ComparesTo runtime v w h) :
    ∃ h, Deep fun n => ∀ results : { r : Results // r.runtime = runtime },
      orSame results.1 (equal results.1 n) v w = .ok h := by
  obtain ⟨h, ends⟩ := compares
  refine ⟨runtime.same v w || h, ends.mono fun n here results => ?_⟩
  rw [orSame_eq_ok (here _ results.2), results.2]

/-- Two values that can be members of a set compare. -/
theorem exists_comparesTo (runtime : Runtime) {v w : Value} (hashable : v.hashable = true)
    (hashable' : w.hashable = true) : ∃ h, ComparesTo runtime w v h := by
  induction size : sizeOf v using Nat.strongRecOn generalizing v w with
  | _ k ih =>
    subst size
    cases items : v.tuple? with
    | none =>
      have scalar : v.IsScalar := by
        cases v with
        | list _ | result _ => cases hashable
        | tuple _ | derivation _ _ => cases items
        | _ => trivial
      obtain ⟨h, equates⟩ := exists_equalWith_of_isScalar runtime scalar w
      refine ⟨h, .always fun n results ran => ?_⟩
      obtain ⟨inner, step⟩ := equal_eq_equalWith results n w v
      rw [step, equates _ _ ran]
    | some vs =>
      have step (n : Nat) (results : Results) : equal results (n + 1) w v =
          match w.tuple? with
          | some ws => equalItems (orSame results (equal results n)) ws vs
          | Option.none => .ok false := equalWith_of_tuple? items hashable' _ results
      cases items' : w.tuple? with
      | none =>
        refine ⟨false, Deep.of_succ (.always fun n results _ => ?_)⟩
        rw [step, items']
      | some ws =>
        obtain ⟨h, compares⟩ : ∃ h, Deep fun n =>
            ∀ results : { r : Results // r.runtime = runtime },
            equalItems (orSame results.1 (equal results.1 n)) ws vs = .ok h := by
          refine exists_equalItems fun p member => exists_orSame_comparesTo ?_
          have part := hashable_of_mem_tuple? hashable items (List.of_mem_zip member).2
          have part' := hashable_of_mem_tuple? hashable' items' (List.of_mem_zip member).1
          exact ih _ part.2 part.1 part'.1 rfl
        refine ⟨h, Deep.of_succ (compares.mono fun n here results ran => ?_)⟩
        rw [step, items']
        exact here ⟨results, ran⟩

/-- One of several members is looked for by comparing them one after the other. -/
theorem exists_anyEqual (runtime : Runtime) {v : Value} {members : List Value}
    (hashable : v.hashable = true) (all : ∀ w ∈ members, w.hashable = true) :
    ∃ h, (Deep fun n => ∀ results, results.runtime = runtime →
        anyEqual results n v members = .ok h) ∧
      (h = true ↔ ∃ w ∈ members, runtime.same w v = true ∨ ComparesTo runtime w v true) := by
  induction members with
  | nil => exact ⟨false, .always fun _ _ _ => rfl, by simp⟩
  | cons w members ih =>
    obtain ⟨first, others⟩ := List.forall_mem_cons.mp all
    obtain ⟨h, compares⟩ := exists_comparesTo runtime hashable first
    obtain ⟨h', further, same⟩ := ih others
    have whole : h = true ↔ ComparesTo runtime w v true :=
      ⟨fun holds => holds ▸ compares, compares.unique⟩
    refine ⟨(runtime.same w v || h) || h',
      compares.both further fun n here there results ran => ?_, ?_⟩
    · rw [anyEqual, orSame_eq_ok (here results ran), ran]
      cases runtime.same w v || h with
      | true => rfl
      | false => exact there results ran
    · rw [Bool.or_eq_true, Bool.or_eq_true, whole, same, List.exists_mem_cons_iff]

/-! ## The first item -/

/-- The item at the first position is the first one. -/
theorem items_of_index_zero {x v : Value} {results : Results}
    (first : x.index results (.int 0) = .ok v) : ∃ others, x.items results = .ok (v :: others) := by
  obtain ⟨contents, items, found⟩ := Except.bind_eq_ok_iff.mp first
  refine ⟨contents.tail, items.trans ?_⟩
  cases contents with
  | nil => cases found
  | cons u us =>
    cases found
    rfl

/-- The items from the second position on are those behind the first one. -/
theorem slice_one_eq_behindFirst {x : Value} {results : Results} {contents : List Value}
    (items : x.items results = .ok contents) :
    x.slice results (.int 1) .none .none = .ok (x.behindFirst contents) := by
  have dropped {α : Type} (us : List α) : sliceList us (some 1) Option.none 1 = us.tail := by
    rw [← List.drop_one]
    exact sliceList_drop us 1
  cases x with
  | text _ | bytes _ | list _ | tuple _ =>
    refine slice_natCast ?_ results 1
    trivial
  | derivation a b =>
    cases items
    simp [slice, bound, position, behindFirst, Functor.map, Except.map, bind, Except.bind,
      pure, Except.pure, dropped]
  | result address =>
    cases items
    simp [slice, bound, position, behindFirst, Functor.map, Except.map, bind, Except.bind,
      pure, Except.pure, dropped]
  | _ => cases items

/-- Where a sequence has a first item and a rest, it is split into these. -/
theorem uncons?_of_index {x v rest : Value} {results : Results}
    (first : x.index results (.int 0) = .ok v)
    (others : x.slice results (.int 1) .none .none = .ok rest) :
    x.uncons? results = .ok (some (v, rest)) := by
  obtain ⟨contents, items⟩ := items_of_index_zero first
  rw [slice_one_eq_behindFirst items] at others
  cases others
  exact uncons?_of_items items

/-- Where a sequence has no items, it is not split. -/
theorem uncons?_of_length_eq_zero {x : Value} {results : Results}
    (empty : x.length results = .ok 0) : x.uncons? results = .ok Option.none := by
  cases x with
  | text xs | bytes xs | list xs | tuple xs =>
    obtain rfl := List.eq_nil_of_length_eq_zero (Except.ok.inj empty)
    rfl
  | result address =>
    have nil := List.eq_nil_of_length_eq_zero (Except.ok.inj empty)
    rw [uncons?, nil]
  | _ => cases empty

end Value

/-! ## Membership as a condition -/

namespace Effects

variable {b : Effects} {p : Parser} {v x rest : Value} {members : List Value}

/-- What may be a member is tested by comparing it with the members. -/
theorem decides_oneOf {h : Bool} (hashable : v.hashable = true)
    (compares : Deep fun n => ∀ results, results.runtime = b.runtime →
      Value.anyEqual results n v members = .ok h) (inside : Bool) :
    b.Decides (.function (.oneOf members inside)) v (.ok (h == inside)) := by
  have settled : b.Settles (fun ev => ev.isMember v members) (.ok h) := by
    have deeper : Deep fun n => ∀ s, b.start s →
        (evaluator n).isMember v members s = .ok h s := by
      refine Deep.of_succ (compares.mono fun n ends s start => ?_)
      rw [Evaluator.isMember, if_pos hashable, Eval.readResults_bind]
      change (liftM (Value.anyEqual s.results n v members) : Eval Bool) s = _
      rw [ends _ (b.ran s start)]
      rfl
    obtain ⟨depth, ends⟩ := deeper
    exact ⟨depth, fun n deep s start => ⟨s, b.refl s start, ends n deep s start⟩⟩
  have told : b.Gives (.function (.oneOf members inside)) [v] (.ok (.bool (h == inside))) :=
    .of_step (fun _ => rfl) (settled.bind (Settles.lift (.ok (Value.bool (h == inside)))))
  exact told.bind (Settles.lift (.ok (h == inside)))

/-- What cannot be a member cannot be tested. -/
theorem decides_oneOf_error (hashable : v.hashable = false) (inside : Bool) :
    b.Decides (.function (.oneOf members inside)) v (.error .wrongKind) := by
  have settled : b.Settles (fun ev => ev.isMember v members) (.error .wrongKind) := by
    refine (Settles.lift (.error .wrongKind)).congr fun n s _ => ?_
    rw [Evaluator.isMember, if_neg (by simp [hashable])]
    rfl
  have told : b.Gives (.function (.oneOf members inside)) [v] (.error .wrongKind) :=
    .of_step (fun _ => rfl) settled.error_bind
  exact told.error_bind

end Effects

/-- One item of an input with a first item and a rest is these two. -/
theorem Effects.yields_item_of_uncons? {s : Store} {x v rest : Value}
    (read : (messages s).Shows x) (splits : x.uncons? s.results = .ok (some (v, rest))) :
    (messages s).Yields .item x (.ok [⟨v, rest⟩]) := by
  refine .of_process (.of_parts Value.shownBy_item (List.forall_mem_nil _)) read rfl rfl
    ⟨0, fun n _ s' logs => ⟨s', logs, ?_⟩⟩
  have same : x.uncons? s'.results = .ok (some (v, rest)) := logs.results ▸ splits
  exact Eval.lift_bind same _ s'

/-- One item of an input without items is not found. -/
theorem Effects.yields_item_of_uncons?_none {s : Store} {x : Value} (read : (messages s).Shows x)
    (splits : x.uncons? s.results = .ok none) : (messages s).Yields .item x (.ok []) := by
  refine .of_process (.of_parts Value.shownBy_item (List.forall_mem_nil _)) read rfl rfl
    ⟨0, fun n _ s' logs => ⟨s', logs, ?_⟩⟩
  have same : x.uncons? s'.results = .ok none := logs.results ▸ splits
  exact Eval.lift_bind same _ s'

/-- Parsers for one item inside and outside a set are complementary. A set can be made of every
collection whose items can be members of one. On a sequence whose first item could be a member too,
and is neither a parser nor the mark of an argument that was left out, one of the two parsers has
that item and the rest as its only derivation, and the other one fails; it is the first one iff some
member is the item or equals it. On a first item that could not be a member both raise an error, and
on the empty sequence both fail. -/
theorem membership_is_complementary {s : Store} {members : List Value} {x : Value}
    (hashable : Value.allHashable members = true) (read : (Effects.messages s).Shows x) :
    let b := Effects.messages s
    (∀ collection inside, collection.items s.results = .ok members →
      Evaluator.makeOneOf collection inside s = .ok (.oneOf members inside) s) ∧
    (∀ v rest, x.index s.results (.int 0) = .ok v →
      x.slice s.results (.int 1) .none .none = .ok rest → v.IsPlain → b.Shows v → b.Shows rest →
      if v.hashable then
        ∃ h, (h = true ↔ ∃ w ∈ members,
            b.runtime.same w v = true ∨ Value.ComparesTo b.runtime w v true) ∧
          ∀ inside, b.Yields (.oneOf members inside) x
            (.ok (if h = inside then [⟨v, rest⟩] else []))
      else ∀ inside, b.Yields (.oneOf members inside) x (.error .wrongKind)) ∧
    (x.length s.results = .ok 0 → ∀ inside, b.Yields (.oneOf members inside) x (.ok [])) := by
  intro b
  refine ⟨fun collection inside items => ?_, fun v rest first others plain shown left => ?_,
    fun empty inside => ?_⟩
  · rw [Evaluator.makeOneOf, Eval.readResults_bind, Eval.lift_bind items, if_pos hashable]
    rfl
  · have found := Effects.yields_item_of_uncons? read (Value.uncons?_of_index first others)
    split
    · next setable =>
      obtain ⟨h, compares, same⟩ :=
        Value.exists_anyEqual b.runtime setable ((Value.allHashable_iff members).mp hashable)
      refine ⟨h, same, fun inside => ?_⟩
      have kept : b.Yields (.oneOf members inside) x
          (.ok ([⟨v, rest⟩].filter fun _ => h == inside)) :=
        Effects.yields_filter found
          (List.forall_mem_singleton.mpr (Effects.decides_oneOf setable compares inside))
          (List.forall_mem_singleton.mpr fun _ => plain)
          (List.forall_mem_singleton.mpr ⟨shown, left⟩)
      cases h <;> cases inside <;> exact kept
    · next setable =>
      intro inside
      have unhashable : v.hashable = false := by simpa using setable
      have raised : b.Yields (.oneOf members inside) x
          (continued (fun _ => contribution (.error .wrongKind) (.ok [])) [⟨v, rest⟩]) :=
        Effects.yields_satisfy found
          (List.forall_mem_singleton.mpr (Effects.decides_oneOf_error unhashable inside))
          (List.forall_mem_singleton.mpr left) (fun _ _ kept => nomatch kept)
      exact raised
  · have found := Effects.yields_item_of_uncons?_none read (Value.uncons?_of_length_eq_zero empty)
    have none : b.Yields (.oneOf members inside) x (.ok ([].filter fun _ => true)) :=
      Effects.yields_filter found (List.forall_mem_nil _) (List.forall_mem_nil _)
        (List.forall_mem_nil _)
    exact none

/-- A number is the member it equals, although that is one of the truth values, so the parser for
one of the members takes it and the other one fails. -/
theorem membership_is_complementary_one :
    let b := Effects.messages Store.initial
    let members : List Value := [.text ['a'], .bool true]
    let x : Value := .list [.int 1, .list []]
    b.Yields (.oneOf members true) x (.ok [⟨.int 1, .list [.list []]⟩]) ∧
      b.Yields (.oneOf members false) x (.ok []) := by
  intro b members x
  have hashable : Value.allHashable members = true := rfl
  have read : b.Shows x := .of_quiet rfl
  obtain ⟨-, first, -⟩ := membership_is_complementary hashable read
  obtain ⟨h, same, yields⟩ := first (.int 1) (.list [.list []]) rfl rfl trivial (.of_quiet rfl)
    (.of_quiet rfl)
  have equals : Value.ComparesTo b.runtime (.bool true) (.int 1) true :=
    .of_succ (.always fun _ _ _ => rfl)
  obtain rfl : h = true := same.mpr ⟨.bool true, by simp [members], .inr equals⟩
  exact ⟨yields true, yields false⟩

/-- On a list whose first item is itself a list, which equals no member, neither of the two parsers
has a result: both raise an error. -/
theorem oneOf_raises :
    let b := Effects.messages Store.initial
    let first : Value := .list [.int 1]
    (∀ w ∈ [Value.text ['a']],
      b.runtime.same w first = false ∧ Value.ComparesTo b.runtime w first false) ∧
      ∀ inside, b.Yields (.oneOf [.text ['a']] inside) (.list [first]) (.error .wrongKind) ∧
        ∀ ds, ¬ b.Yields (.oneOf [.text ['a']] inside) (.list [first]) (.ok ds) := by
  intro b first
  have differs : Value.ComparesTo b.runtime (.text ['a']) first false :=
    .of_succ (.always fun _ _ _ => rfl)
  refine ⟨List.forall_mem_singleton.mpr ⟨rfl, differs⟩, fun inside => ?_⟩
  have found : b.Yields .item (.list [first]) (.ok [⟨first, .list []⟩]) :=
    Effects.yields_item_of_uncons? (.of_quiet rfl) rfl
  have raised : b.Yields (.oneOf [.text ['a']] inside) (.list [first])
      (continued (fun _ => contribution (.error .wrongKind) (.ok [])) [⟨first, .list []⟩]) :=
    Effects.yields_satisfy found
      (List.forall_mem_singleton.mpr (Effects.decides_oneOf_error rfl inside))
      (List.forall_mem_singleton.mpr (.of_quiet rfl)) (fun _ _ kept => nomatch kept)
  refine ⟨raised, fun ds succeeded => ?_⟩
  cases raised.settles.unique (Store.Logs.refl _) succeeded.settles

end GrammarKit
