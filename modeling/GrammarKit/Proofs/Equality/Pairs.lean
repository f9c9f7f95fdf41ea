import GrammarKit.Evaluation.Interpreter
import GrammarKit.Proofs.Equality.Counterparts

/-! # Result lists and lists of pairs

A result list is compared with a list or tuple by taking the items of every element, whatever that
is, and only then comparing. So an element that is no collection is an error, also where the result
list is empty, and a text of two characters counts as a pair of two texts. With tuples or
derivations for elements, and so on wherever a result list is compared within, the comparison is
exact: it comes to an answer, which is that they are equal iff there are as many pairs as
derivations, with values and remainders that match.
-/

namespace GrammarKit

namespace Value

variable {results : Results} {e : Value} {vs es : List Value}

theorem items_eq_ok_or_error (results : Results) (e : Value) :
    (∃ vs, e.items results = .ok vs) ∨ e.items results = .error .wrongKind := by
  cases e with
  | text _ | bytes _ | list _ | tuple _ | derivation _ _ | result _ => exact .inl ⟨_, rfl⟩
  | _ => exact .inr rfl

/-- One element that is no collection is enough for an error. -/
theorem mapM_row_of_error (member : e ∈ es) (fails : e.items results = .error .wrongKind) :
    es.mapM (row results) = .error (.error .wrongKind) := by
  induction es with
  | nil => cases member
  | cons u es ih =>
    rw [List.mapM_cons]
    rcases items_eq_ok_or_error results u with ⟨vs, items⟩ | fails'
    · have later : e ∈ es := by
        rcases List.mem_cons.mp member with rfl | later
        · cases items.symm.trans fails
        · exact later
      rw [row, items, ih later]
      rfl
    · rw [row, fails']
      rfl

/-- What is in a value that holds no result lists holds none. -/
theorem IsFreestanding.of_items (free : e.IsFreestanding) (items : e.items results = .ok vs) :
    ∀ v ∈ vs, v.IsFreestanding := by
  cases free with
  | list all =>
    cases items
    exact all
  | tuple sequence all =>
    cases (items_of_tuple? sequence).symm.trans items
    exact all
  | scalar scalar =>
    cases e with
    | text _ | bytes _ =>
      cases items
      exact List.forall_mem_map.mpr fun _ _ => .scalar trivial
    | list _ | tuple _ | derivation _ _ | result _ => exact scalar.elim
    | _ => cases items

end Value

namespace Results

variable {results : Results} {o : Value} {es es' : List Value} {a : Nat}

/-- A result list and a list or tuple with an element that is no collection do not compare. -/
theorem compares_error (listed : o.listOrTuple? = some es)
    (fails : ∃ e ∈ es, e.items results = .error .wrongKind) :
    results.Compares (.result a) o (.error .wrongKind) := by
  obtain ⟨e, member, fails⟩ := fails
  refine .of_succ (.always fun n => ?_)
  rw [Value.equal, Value.equalWith_left listed, Value.equalRows_eq,
    Value.mapM_row_of_error member fails]
  rfl

/-- A result list and a list or tuple of collections compare if they hold no other result lists. -/
theorem exists_compares_collections (listed : o.listOrTuple? = some es)
    (free : ∀ d ∈ results.read a, d.toValue.IsFreestanding)
    (collections : ∀ e ∈ es, e.IsFreestanding ∧ ∃ vs, e.items results = .ok vs) :
    ∃ h, results.Compares (.result a) o (.ok h) := by
  obtain ⟨rows, made, all⟩ : ∃ rows, es.mapM (Value.row results) = .ok rows ∧
      ∀ u ∈ rows, u.IsFreestanding := by
    refine Except.exists_mapM_eq_ok fun e member => ?_
    obtain ⟨free, vs, items⟩ := collections e member
    exact ⟨_, Value.row_eq_ok_iff.mpr ⟨vs, items, rfl⟩, .tuple rfl (free.of_items items)⟩
  obtain ⟨h, ends⟩ := Value.exists_equalRows made fun p member =>
    (comparable_of_isFreestanding (List.forall_mem_map.mpr free _ (List.of_mem_zip member).1)
      (all _ (List.of_mem_zip member).2)).exists_compares
  refine ⟨h, .of_succ (ends.mono fun n here => ?_)⟩
  rw [Value.equal, Value.equalWith_left listed, here]
  rfl

theorem forall₂_isRow_iff {ds : List Derivation} :
    List.Forall₂ (results.IsRow results.Matches) ds es ↔ List.Forall₂ (fun d e => ∃ v r,
      e.items results = .ok [v, r] ∧ results.Matches d.value v ∧ results.Matches d.remainder r)
      ds es :=
  ⟨fun rows => rows.imp fun _ _ => isRow_iff.mp, fun pairs => pairs.imp fun _ _ => isRow_iff.mpr⟩

/-- The items of tuples and derivations are what these are made of. -/
theorem forall₂_pairs_iff {ds : List Derivation} (tuples : ∀ e ∈ es, ∃ us, e.tuple? = some us) :
    List.Forall₂ (fun d e => ∃ v r, e.items results = .ok [v, r] ∧ results.Matches d.value v ∧
      results.Matches d.remainder r) ds es ↔
    List.Forall₂ (fun d e => ∃ v r, e.tuple? = some [v, r] ∧ results.Matches d.value v ∧
      results.Matches d.remainder r) ds es := by
  simp only [List.forall₂_iff_zip]
  refine and_congr_right fun _ => forall₂_congr fun d e => forall_congr' fun member => ?_
  obtain ⟨us, items⟩ := tuples e (List.of_mem_zip member).2
  rw [items, Value.items_of_tuple? items]
  simp only [Except.ok.injEq, Option.some.injEq]

/-- Lists of pairs that are equal to a result list, which holds no other ones, are equal. -/
theorem equals_of_equals_result (free : ∀ d ∈ results.read a, d.toValue.IsFreestanding)
    (comparable : results.Comparable (.result a) (.list es))
    (first : results.Equals (.result a) (.list es))
    (comparable' : results.Comparable (.result a) (.list es'))
    (second : results.Equals (.result a) (.list es')) :
    results.Equals (.list es) (.list es') := by
  have pairs {es : List Value} (comparable : results.Comparable (.result a) (.list es))
      (equals : results.Equals (.result a) (.list es)) :
      List.Forall₂ results.Fits (results.rows a) es := by
    obtain ⟨tuples, comparable⟩ := comparable.symm.of_right rfl
    have rowwise := (equals_left_iff rfl).mp equals
    refine ((forall₂_fits_rows tuples comparable rowwise).imp fun e d fits => ?_).flip
    exact ⟨fits.1.symm, fits.2.symm⟩
  have each : ∀ v ∈ results.rows a, ∀ w u, results.Fits v w → results.Fits v u →
      results.Matches w u :=
    List.forall_mem_map.mpr fun d member w u here there => Fits.matches (free d member) here there
  exact equals_iff.mpr
    (.list (forall₂_of_common each (pairs comparable first) (pairs comparable' second)))

end Results

/-- An evaluator compares values to its own depth, and leaves the store as it is. -/
theorem Evaluator.applyOperation_equal {s : Store} {v w : Value} {r : Except Error Bool}
    (compares : s.results.Compares v w r) : Deep fun n =>
      (evaluator n).applyOperation (.operator .equal) [v, w] s =
        (liftM (Value.bool <$> r) : Eval Value) s := by
  refine .of_succ (compares.mono fun n here => ?_)
  change ((liftM (Value.equal s.results n v w) : Eval Bool) >>= fun h => pure (Value.bool h)) s = _
  rw [here]
  cases r <;> rfl

/-- What the comparison of a result list with a list or tuple comes to. If the elements are tuples
or derivations, and so on wherever a result list meets a list or tuple within, it comes to an
answer, which is that they are equal iff there are as many elements as derivations and each is a
pair whose items match the value and the remainder, that is, are equal to them or the same objects.
Among values that hold no result lists, collections of other kinds for elements have an answer as
well, and two lists of pairs that are equal to the same result list are equal. Whatever the elements
are, the answer is that they are equal iff each has two items and these match the value and the
remainder; an element that has no items is an error. -/
theorem comparison_with_pairs_is_exact {s : Store} {a : Nat} {o : Value} {es : List Value}
    (listed : o.listOrTuple? = some es) :
    let results := s.results
    let ds := results.read a
    (∀ v w r, results.Compares v w r → Deep fun n =>
      (evaluator n).applyOperation (.operator .equal) [v, w] s =
        (liftM (Value.bool <$> r) : Eval Value) s) ∧
    (results.Comparable (.result a) o → ∃ h, results.Compares (.result a) o (.ok h) ∧
      (h = true ↔ List.Forall₂ (fun d e => ∃ v r, e.tuple? = some [v, r] ∧
        results.Matches d.value v ∧ results.Matches d.remainder r) ds es)) ∧
    ((∀ d ∈ ds, d.toValue.IsFreestanding) →
      ((∀ e ∈ es, e.IsFreestanding ∧ ∃ us, e.tuple? = some us) →
        results.Comparable (.result a) o) ∧
      ((∀ e ∈ es, e.IsFreestanding ∧ ∃ us, e.items results = .ok us) →
        ∃ h, results.Compares (.result a) o (.ok h)) ∧
      ∀ es es', results.Comparable (.result a) (.list es) →
        results.Equals (.result a) (.list es) → results.Comparable (.result a) (.list es') →
        results.Equals (.result a) (.list es') → results.Equals (.list es) (.list es')) ∧
    (results.Equals (.result a) o ↔ List.Forall₂ (fun d e => ∃ v r, e.items results = .ok [v, r] ∧
      results.Matches d.value v ∧ results.Matches d.remainder r) ds es) ∧
    ((∃ e ∈ es, e.items results = .error .wrongKind) →
      results.Compares (.result a) o (.error .wrongKind)) := by
  intro results ds
  have rowwise : results.Equals (.result a) o ↔ List.Forall₂ (fun d e => ∃ v r,
      e.items results = .ok [v, r] ∧ results.Matches d.value v ∧ results.Matches d.remainder r)
      ds es := (Results.equals_left_iff listed).trans Results.forall₂_isRow_iff
  refine ⟨fun _ _ _ => Evaluator.applyOperation_equal, fun comparable => ?_, fun free =>
    ⟨fun pairs => ?_, Results.exists_compares_collections listed free, fun _ _ =>
      Results.equals_of_equals_result free⟩, rowwise, Results.compares_error listed⟩
  · obtain ⟨h, ends⟩ := comparable.exists_compares
    obtain ⟨tuples, -⟩ := comparable.symm.of_right listed
    refine ⟨h, ends, ?_⟩
    rw [← Results.forall₂_pairs_iff tuples, ← rowwise]
    refine ⟨?_, ends.unique⟩
    rintro rfl
    exact ends
  · exact .left listed (fun e member => (pairs e member).2) fun p member =>
      Results.comparable_of_isFreestanding (free p.1 (List.of_mem_zip member).1)
        (pairs p.2 (List.of_mem_zip member).2).1

/-- One is equal to the truth value and to the float, so both pairs are equal to the derivation, and
the two lists of them are equal. A function and a float that is no number are the objects of the
second derivation, so the pair of them is equal to it, although the float equals no number. -/
theorem comparison_with_pairs_is_exact_one :
    let nan : Value := .float (0 / 0)
    let results : Results := { lists := #[[⟨.int 1, .text []⟩], [⟨.function .skipSpace, nan⟩]] }
    let truths : List Value := [.derivation (.bool true) (.text [])]
    let floats : List Value := [.tuple [.float 1, .text []]]
    let objects : List Value := [.tuple [.function .skipSpace, nan]]
    (Value.list truths).listOrTuple? = some truths ∧
      results.Compares (.result 0) (.list truths) (.ok true) ∧
      results.Equals (.list truths) (.list floats) ∧
      results.Compares (.result 1) (.list objects) (.ok true) ∧
      results.Compares nan nan (.ok false) := by
  intro nan results truths floats objects
  let s : Store := { Store.initial with results := results }
  have plainPair {e v r : Value} (pair : e.tuple? = some [v, r]) (scalar : v.IsScalar)
      (scalar' : r.IsScalar) : e.IsFreestanding :=
    .tuple pair (List.forall_mem_cons.mpr
      ⟨.scalar scalar, List.forall_mem_singleton.mpr (.scalar scalar')⟩)
  have compared {a : Nat} {d : Derivation} {e v r : Value} (row : results.read a = [d])
      (free : d.toValue.IsFreestanding) (pair : e.tuple? = some [v, r]) (scalar : v.IsScalar)
      (scalar' : r.IsScalar) (value : results.Matches d.value v)
      (remainder : results.Matches d.remainder r) :
      results.Comparable (.result a) (.list [e]) ∧
        results.Compares (.result a) (.list [e]) (.ok true) := by
    obtain ⟨-, exact_, plain, -, -⟩ :=
      comparison_with_pairs_is_exact (s := s) (a := a) (o := .list [e]) rfl
    have all : ∀ d ∈ results.read a, d.toValue.IsFreestanding :=
      row ▸ List.forall_mem_singleton.mpr free
    have comparable := (plain all).1
      (List.forall_mem_singleton.mpr ⟨plainPair pair scalar scalar', _, pair⟩)
    obtain ⟨h, ends, equal⟩ := exact_ comparable
    obtain rfl : h = true :=
      equal.mpr (row ▸ .cons ⟨v, r, pair, value, remainder⟩ .nil)
    exact ⟨comparable, ends⟩
  have free : ∀ d ∈ results.read 0, d.toValue.IsFreestanding :=
    List.forall_mem_singleton.mpr (plainPair rfl trivial trivial)
  have empty : results.Matches (.text []) (.text []) :=
    .inr (Results.equals_iff.mpr (.token trivial))
  have truth := compared (a := 0) (e := .derivation (.bool true) (.text [])) rfl
    (plainPair rfl trivial trivial) rfl trivial trivial
    (.inr (Results.equals_iff.mpr (.number rfl rfl rfl))) empty
  have float := compared (a := 0) (e := .tuple [.float 1, .text []]) rfl
    (plainPair rfl trivial trivial) rfl trivial trivial
    (.inr (Results.equals_iff.mpr (.number rfl rfl rfl))) empty
  have single (v : Value) : results.Matches v v := .inl (Runtime.same_iff _ |>.mpr ⟨rfl, rfl⟩)
  have object := compared (a := 1) (e := .tuple [.function .skipSpace, nan]) rfl
    (plainPair rfl trivial trivial) rfl trivial trivial (single _) (single _)
  obtain ⟨-, -, plain, -, -⟩ :=
    comparison_with_pairs_is_exact (s := s) (a := 0) (o := .list truths) rfl
  exact ⟨rfl, truth.2, (plain free).2.2 _ _ truth.1 truth.2 float.1 float.2, object.2,
    .of_succ (.always fun _ => rfl)⟩

/-- A list whose element is no collection is an error, and a text of two characters is taken for a
pair of them: so two lists are equal to a result list that are not equal to each other. -/
theorem comparison_takes_elements_apart :
    let s : Store := { Store.initial with results := { lists := #[[⟨.text ['a'], .text ['b']⟩]] } }
    let text : Value := .list [.text ['a', 'b']]
    let pair : Value := .list [.tuple [.text ['a'], .text ['b']]]
    let compared (v w : Value) := fun n => (evaluator n).applyOperation (.operator .equal) [v, w] s
    (Deep fun n => compared (.result 0) (.list [.int 1]) n = .error (.error .wrongKind) s) ∧
      (Deep fun n => compared (.result 0) text n = .ok (.bool true) s) ∧
      (Deep fun n => compared (.result 0) pair n = .ok (.bool true) s) ∧
      (Deep fun n => compared text pair n = .ok (.bool false) s) := by
  intro s text pair compared
  refine ⟨⟨4, fun n le => ?_⟩, ⟨4, fun n le => ?_⟩, ⟨4, fun n le => ?_⟩, ⟨4, fun n le => ?_⟩⟩
  all_goals
    obtain ⟨n, rfl⟩ : ∃ k, n = k + 4 := ⟨n - 4, by omega⟩
    rfl

end GrammarKit
