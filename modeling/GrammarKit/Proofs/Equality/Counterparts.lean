import GrammarKit.Proofs.Equality.Comparable

/-! # Values that equal a third one

Two values that equal a third one need not equal each other: a result list equals a list and a tuple
of the same pairs, which do not equal each other. They do if the third value holds no result lists.
What equals such a value holds a counterpart of everything in it, equal to it or the same object,
and where it is a result list these are the derivations; so the equality of two such values follows
from that of their counterparts, by induction on the third one.
-/

namespace GrammarKit.Results

variable {results : Results} {v w u e y : Value} {vs ws us es : List Value} {a b : Nat}
  {ds : List Derivation}

/-! ## What comparable values hold -/

theorem Comparable.symm (comparable : results.Comparable v w) : results.Comparable w v := by
  have swap {vs ws : List Value} (items : ∀ p ∈ vs.zip ws, results.Comparable p.2 p.1) :
      ∀ p ∈ ws.zip vs, results.Comparable p.1 p.2 := by
    rw [← List.zip_swap, List.forall_mem_map]
    exact items
  induction comparable with
  | scalar scalar => exact .scalar scalar.symm
  | apart first second kinds => exact .apart second first kinds.symm
  | list _ ih => exact .list (swap ih)
  | tuple first second _ ih => exact .tuple second first (swap ih)
  | result _ ih =>
    refine .result ?_
    rw [← List.zip_swap, List.forall_mem_map]
    exact ih
  | left listed tuples rows _ => exact .right listed tuples rows
  | right listed tuples rows _ => exact .left listed tuples rows

theorem Comparable.of_list (comparable : results.Comparable (.list vs) (.list ws)) :
    ∀ p ∈ vs.zip ws, results.Comparable p.1 p.2 := by
  cases comparable with
  | scalar scalar => exact (scalar.elim id id).elim
  | apart _ _ kinds => exact absurd rfl kinds
  | list items => exact items
  | tuple first _ _ => cases first

theorem Comparable.of_tuple (comparable : results.Comparable v w) (first : v.tuple? = some vs)
    (second : w.tuple? = some ws) : ∀ p ∈ vs.zip ws, results.Comparable p.1 p.2 := by
  cases comparable with
  | scalar scalar =>
    rcases scalar with scalar | scalar
    · exact absurd scalar (Value.not_isScalar_of_listed (Value.listed_of_tuple? first))
    · exact absurd scalar (Value.not_isScalar_of_listed (Value.listed_of_tuple? second))
  | apart _ _ kinds =>
    rw [first, second] at kinds
    exact absurd rfl kinds
  | list items => cases first
  | tuple first' second' items =>
    cases first.symm.trans first'
    cases second.symm.trans second'
    exact items
  | result _ | left _ _ _ => cases first
  | right _ _ _ => cases second

theorem Comparable.of_right (comparable : results.Comparable v (.result a))
    (listed : v.listOrTuple? = some es) : (∀ e ∈ es, ∃ us, e.tuple? = some us) ∧
      ∀ p ∈ (results.read a).zip es, results.Comparable p.1.toValue p.2 := by
  cases comparable with
  | scalar scalar => exact (scalar.elim (Value.not_isScalar_of_listed listed) id).elim
  | apart _ second _ => cases second
  | tuple _ second _ => cases second
  | result _ | left _ _ _ => cases listed
  | right listed' tuples rows =>
    cases listed.symm.trans listed'
    exact ⟨tuples, rows⟩

/-! ## Counterparts -/

/-- Whether a value can be compared with another one, and matches it. -/
def Fits (results : Results) (v w : Value) : Prop := results.Comparable v w ∧ results.Matches v w

/-- The derivations of a result list, as values. -/
def rows (results : Results) (a : Nat) : List Value := (results.read a).map Derivation.toValue

theorem forall₂_fits (comparable : ∀ p ∈ vs.zip ws, results.Comparable p.1 p.2)
    (items : List.Forall₂ results.Matches vs ws) : List.Forall₂ results.Fits vs ws := by
  rw [List.forall₂_iff_zip] at items ⊢
  exact ⟨items.1, fun member => ⟨comparable _ member, items.2 member⟩⟩

/-- Tuples have the items of a derivation iff they are equal to it. -/
theorem isRow_iff_of_tuple {d : Derivation} (items : e.tuple? = some us) :
    results.IsRow results.Matches d e ↔ results.Equals d.toValue e := by
  have whole : e.items results = .ok us := Value.items_of_tuple? items
  have apart (vs : List Value) : d.toValue ≠ .tuple vs := nofun
  rw [equals_tuple_iff rfl items]
  constructor
  · rintro ⟨vs, contents, same⟩
    cases contents.symm.trans whole
    exact (equals_tuple_iff rfl rfl).mp ((matches_iff_of_ne (apart _)).mp same)
  · intro equals
    exact ⟨us, whole, .inr ((equals_tuple_iff rfl rfl).mpr equals)⟩

/-- The tuples that are compared with a result list fit its derivations. -/
theorem forall₂_fits_rows (tuples : ∀ e ∈ es, ∃ us, e.tuple? = some us)
    (comparable : ∀ p ∈ (results.read a).zip es, results.Comparable p.1.toValue p.2)
    (rowwise : List.Forall₂ (results.IsRow results.Matches) (results.read a) es) :
    List.Forall₂ results.Fits es (results.rows a) := by
  rw [rows, List.forall₂_map_right_iff]
  refine List.Forall₂.flip ?_
  rw [List.forall₂_iff_zip] at rowwise ⊢
  refine ⟨rowwise.1, fun {d e} member => ⟨(comparable _ member).symm, .inr ?_⟩⟩
  obtain ⟨us, items⟩ := tuples e (List.of_mem_zip member).2
  exact ((isRow_iff_of_tuple items).mp (rowwise.2 member)).symm

/-- What equals a list or tuple holds counterparts of its items: it is a list or tuple as well, or a
result list that is compared with tuples, whose items are those of its derivations. -/
theorem Equals.counterparts (equals : results.Equals v w) (comparable : results.Comparable v w)
    (listed : v.listOrTuple? = some vs) : ∃ ws, List.Forall₂ results.Fits vs ws ∧
      ((v = .list vs ∧ w = .list ws) ∨ (v.tuple? = some vs ∧ w.tuple? = some ws) ∨
        ∃ a, w = .result a ∧ ws = results.rows a ∧ (∀ v ∈ vs, ∃ us, v.tuple? = some us) ∧
          List.Forall₂ (results.IsRow results.Matches) (results.read a) vs) := by
  cases equals_iff.mp equals with
  | token token => exact absurd token (Value.not_isToken_of_listed listed)
  | object object => exact absurd object (Value.not_isObject_of_listed listed)
  | number number => cases number.symm.trans (Value.number?_of_listed listed)
  | list items =>
    cases listed
    exact ⟨_, forall₂_fits comparable.of_list items, .inl ⟨rfl, rfl⟩⟩
  | tuple first second items =>
    cases listed.symm.trans (Value.listed_of_tuple? first)
    exact ⟨_, forall₂_fits (comparable.of_tuple first second) items, .inr (.inl ⟨first, second⟩)⟩
  | result _ | left _ _ => cases listed
  | right listed' rowwise =>
    cases listed.symm.trans listed'
    obtain ⟨tuples, rows⟩ := comparable.of_right listed
    exact ⟨_, forall₂_fits_rows tuples rows rowwise, .inr (.inr ⟨_, rfl, rfl, tuples, rowwise⟩)⟩

/-- What equals a tuple has items, and the tuple of these fits it. -/
theorem Equals.items_of_tuple (equals : results.Equals v w) (comparable : results.Comparable v w)
    (items : v.tuple? = some vs) :
    ∃ ws, w.items results = .ok ws ∧ results.Fits v (.tuple ws) := by
  obtain ⟨ws, counterparts, kinds⟩ := equals.counterparts comparable (Value.listed_of_tuple? items)
  refine ⟨ws, ?_, .tuple items rfl ?_, .inr ((equals_tuple_iff items rfl).mpr ?_)⟩
  · rcases kinds with ⟨rfl, -⟩ | ⟨-, second⟩ | ⟨a, rfl, rfl, -⟩
    · cases items
    · exact Value.items_of_tuple? second
    · rfl
  · exact fun p member => ((List.forall₂_iff_zip.mp counterparts).2 member).1
  · exact counterparts.imp fun _ _ => And.right

/-! ## Transitivity -/

/-- What a value without items equals is the same value or the same number. -/
theorem Equals.of_isScalar (equals : results.Equals v w) (scalar : v.IsScalar) : v = w ∨
    ∃ m n, v.number? = some m ∧ w.number? = some n ∧ m.equal n = true := by
  cases equals_iff.mp equals with
  | token | object => exact .inl rfl
  | number first second same => exact .inr ⟨_, _, first, second, same⟩
  | list _ | result _ | left _ _ => exact scalar.elim
  | tuple first _ _ =>
    exact absurd scalar (Value.not_isScalar_of_listed (Value.listed_of_tuple? first))
  | right listed _ => exact absurd scalar (Value.not_isScalar_of_listed listed)

theorem equals_of_isScalar (scalar : v.IsScalar) (first : results.Equals v w)
    (second : results.Equals v u) : results.Equals w u := by
  obtain rfl | ⟨m, n, here, there, same⟩ := first.of_isScalar scalar
  · exact second
  · obtain rfl | ⟨m', n', here', there', same'⟩ := second.of_isScalar scalar
    · exact first.symm
    · cases here.symm.trans here'
      exact equals_iff.mpr (.number there there' (Number.equal_of_equal same same'))

/-- Lists whose items are related to those of a third list are related item by item. -/
theorem forall₂_of_common {α β γ : Type} {P : α → β → Prop} {Q : α → γ → Prop}
    {R : β → γ → Prop} {as : List α} {bs : List β} {cs : List γ}
    (common : ∀ a ∈ as, ∀ b c, P a b → Q a c → R b c) (first : List.Forall₂ P as bs)
    (second : List.Forall₂ Q as cs) : List.Forall₂ R bs cs := by
  induction first generalizing cs with
  | nil =>
    cases second
    exact .nil
  | cons here _ ih =>
    cases second with
    | cons there others =>
      obtain ⟨head, tail⟩ := List.forall_mem_cons.mp common
      exact .cons (head _ _ here there) (ih tail others)

/-- If what fits an item is the same whichever value it is, the counterparts of tuples that have
the items of derivations have them too. -/
theorem forall₂_isRow_of_fits
    (each : ∀ e ∈ vs, ∀ w u, results.Fits e w → results.Fits e u → results.Matches w u)
    (tuples : ∀ e ∈ vs, ∃ us, e.tuple? = some us)
    (rowwise : List.Forall₂ (results.IsRow results.Matches) ds vs)
    (fits : List.Forall₂ results.Fits vs (ds.map Derivation.toValue))
    (others : List.Forall₂ results.Fits vs ws) :
    List.Forall₂ (results.IsRow results.Matches) ds ws := by
  rw [List.forall₂_map_right_iff] at fits
  have both : List.Forall₂ (fun e d => results.Fits e d.toValue ∧ results.IsRow results.Matches d e)
      vs ds := by
    rw [List.forall₂_iff_zip] at fits ⊢
    exact ⟨fits.1, fun member => ⟨fits.2 member, (List.forall₂_iff_zip.mp rowwise.flip).2 member⟩⟩
  refine forall₂_of_common (fun e member d y ⟨fits, row⟩ ⟨comparable, same⟩ => ?_) both others
  rcases same with one | equals
  · rwa [(results.runtime.same_iff.mp one).2] at row
  · obtain ⟨us, tuple⟩ := tuples e member
    obtain ⟨ws, contents, whole⟩ := equals.items_of_tuple comparable tuple
    exact ⟨ws, contents, each e member _ _ fits whole⟩

/-- What equals a list or tuple is the same whichever value it is, if that holds of the items. -/
theorem equals_of_listed (listed : v.listOrTuple? = some vs)
    (each : ∀ e ∈ vs, ∀ w u, results.Fits e w → results.Fits e u → results.Matches w u)
    (comparable : results.Comparable v w) (first : results.Equals v w)
    (comparable' : results.Comparable v u) (second : results.Equals v u) : results.Equals w u := by
  obtain ⟨ws, here, kind⟩ := first.counterparts comparable listed
  obtain ⟨us, there, kind'⟩ := second.counterparts comparable' listed
  have items : List.Forall₂ results.Matches ws us := forall₂_of_common each here there
  rcases kind with ⟨rfl, rfl⟩ | ⟨tuple, tuple'⟩ | ⟨a, rfl, rfl, tuples, rowwise⟩
  · rcases kind' with ⟨-, rfl⟩ | ⟨⟨⟩, -⟩ | ⟨b, rfl, rfl, tuples, rowwise⟩
    · exact equals_iff.mpr (.list items)
    · exact equals_iff.mpr (.right rfl (forall₂_isRow_of_fits each tuples rowwise there here))
  · rcases kind' with ⟨rfl, -⟩ | ⟨-, tuple''⟩ | ⟨b, rfl, rfl, tuples, rowwise⟩
    · cases tuple
    · exact (equals_tuple_iff tuple' tuple'').mpr items
    · exact equals_iff.mpr (.right (Value.listed_of_tuple? tuple')
        (forall₂_isRow_of_fits each tuples rowwise there here))
  · rcases kind' with ⟨-, rfl⟩ | ⟨-, tuple⟩ | ⟨b, rfl, rfl, -⟩
    · exact equals_iff.mpr (.left rfl (forall₂_isRow_of_fits each tuples rowwise here there))
    · exact equals_iff.mpr (.left (Value.listed_of_tuple? tuple)
        (forall₂_isRow_of_fits each tuples rowwise here there))
    · rw [rows, rows, List.forall₂_map_left_iff, List.forall₂_map_right_iff] at items
      exact equals_iff.mpr (.result items)

/-- A value that is one object with a third one matches what that one matches, so it is enough to
consider values that equal it. -/
theorem Fits.both (first : results.Fits v w) (second : results.Fits v u)
    (equal : results.Comparable v w → results.Equals v w → results.Comparable v u →
      results.Equals v u → results.Equals w u) : results.Matches w u := by
  rcases first.2 with one | equals
  · rw [← (results.runtime.same_iff.mp one).2]
    exact second.2
  · rcases second.2 with one | equals'
    · rw [← (results.runtime.same_iff.mp one).2]
      exact first.2.symm
    · exact .inr (equal first.1 equals second.1 equals')

/-- Values that fit a third one, which holds no result lists, match. -/
theorem Fits.matches (free : v.IsFreestanding) (first : results.Fits v w)
    (second : results.Fits v u) : results.Matches w u := by
  induction free generalizing w u with
  | @scalar v scalar =>
    exact first.both second fun _ here _ there => equals_of_isScalar scalar here there
  | @list vs _ ih =>
    exact first.both second fun comparable here comparable' there =>
      equals_of_listed rfl (fun e member w u => ih e member) comparable here comparable' there
  | tuple sequence _ ih =>
    exact first.both second fun comparable here comparable' there =>
      equals_of_listed (Value.listed_of_tuple? sequence) (fun e member w u => ih e member)
        comparable here comparable' there

end GrammarKit.Results
