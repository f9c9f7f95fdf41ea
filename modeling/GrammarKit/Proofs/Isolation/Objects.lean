import GrammarKit.Proofs.Comparison.Frame
import GrammarKit.Proofs.Comparison.Sides
import Mathlib.Data.List.Pairwise

/-! # The objects behind result lists

Whoever holds a reference to a result list sees what others append to it. So it matters which
references lead to the same object. The objects of a store are told apart from the result lists:
every list of derivations that a parser makes is an object, and those that are handed out have an
address as well. The same object may be handed out again, under one more address; whatever is
appended to it is then read at both.

In a coherent store this has not happened, and each address leads to an object of its own.
-/

namespace GrammarKit

namespace Objects

variable (objects : Objects)

/-- How many objects there are. -/
def size : Nat := objects.held.size

/-- What an object holds. -/
def read (o : Nat) : List Derivation := objects.held.read o

/-- Whether an object has been handed out. -/
def Known (o : Nat) : Prop := ∃ address, (address, o) ∈ objects.behind

end Objects

namespace Store

variable (s : Store)

/-- The store without its objects. -/
def byValue : Store := { s with objects := {} }

/-- The store in which derivations have been appended to a result list. -/
def appendTo (address : Nat) (ds : List Derivation) : Store :=
  { s with results := s.results.write address (s.results.read address ++ ds) }

/-- The store with one more object. -/
def addObject (ds : List Derivation) : Store :=
  { s with objects := { s.objects with held := s.objects.held.push ds } }

/-- The store in which an object holds something else. It is read at each address of the object. -/
def fill (o : Nat) (ds : List Derivation) : Store :=
  { s with
    results := (s.objects.behind.filter (·.2 = o)).foldl (fun results e => results.write e.1 ds)
      s.results
    objects := { s.objects with held := s.objects.held.write o ds } }

/-- The store in which an object has been handed out, under one more address. -/
def handOut (o : Nat) : Store :=
  { s with
    results := s.results.push (s.objects.read o)
    objects := { s.objects with behind := (s.results.size, o) :: s.objects.behind } }

/-- The store in which derivations have been appended to what is at an address, which is an object
that other addresses may lead to as well. What has never been handed out by a parser, as the sum of
two result lists, has no object to be told apart from. -/
def appendAt (address : Nat) (ds : List Derivation) : Store :=
  match s.objects.behind.lookup address with
  | some o => s.fill o (s.objects.read o ++ ds)
  | none => s.appendTo address ds

/-- Makes an object. -/
def newObject (ds : List Derivation) : Eval Nat :=
  modifyGet fun s => (s.objects.size, s.addObject ds)

/-- What an object holds at the moment. -/
def readObject (o : Nat) : Eval (List Derivation) := return (← get).objects.read o

/-- Appends to an object. -/
def extendObject (o : Nat) (ds : List Derivation) : Eval Unit :=
  modify fun s => s.fill o (s.objects.read o ++ ds)

/-- Gives an object an address. -/
def giveAddress (o : Nat) : Eval Value :=
  modifyGet fun s => (.result s.results.size, s.handOut o)

/-- Whether every address leads to an object of its own, which holds what is read there. -/
structure Coherent : Prop where
  inside : ∀ e ∈ s.objects.behind, e.1 < s.results.size ∧ e.2 < s.objects.size
  read : ∀ e ∈ s.objects.behind, s.objects.read e.2 = s.results.read e.1
  distinct : s.objects.behind.Pairwise fun e e' => e.1 ≠ e'.1 ∧ e.2 ≠ e'.2

end Store

/-! ## What becomes of stores -/

namespace Store

/-- What may become of a store in an evaluation. No object is lost, and none that has not been
handed out is handed out or changed; none at all is changed, and no result list, unless the
evaluation may append to result lists. -/
structure Evolves (append : Bool) (s t : Store) : Prop where
  size : s.objects.size ≤ t.objects.size
  behind : ∃ more, t.objects.behind = more ++ s.objects.behind ∧ ∀ e ∈ more, s.objects.size ≤ e.2
  read : ∀ o < s.objects.size, append = false ∨ ¬s.objects.Known o →
    t.objects.read o = s.objects.read o
  results : append = false → s.results.Kept t.results

/-- Whether an object is one that there was not before, holds some derivations and has not been
handed out. -/
structure Fresh (before : Store) (o : Nat) (ds : List Derivation) (s : Store) : Prop where
  unused : before.objects.size ≤ o
  inside : o < s.objects.size
  unknown : ¬s.objects.Known o
  holds : s.objects.read o = ds

variable {append : Bool} {before s t u : Store} {o o' : Nat} {ds ds' : List Derivation}

namespace Evolves

theorem others (results : t.results = s.results) (objects : t.objects = s.objects) :
    Evolves append s t := by
  refine ⟨Nat.le_of_eq ?_, ⟨[], ?_, List.forall_mem_nil _⟩, fun _ _ _ => ?_, fun _ => ?_⟩
  · rw [objects]
  · rw [objects]
    rfl
  · rw [objects]
  · rw [results]
    exact ⟨Nat.le_refl _, fun _ _ => rfl⟩

theorem refl (s : Store) : Evolves append s s := others rfl rfl

/-- What has not been handed out is not handed out later. -/
theorem unknown (later : Evolves append s t) (inside : o < s.objects.size)
    (unknown : ¬s.objects.Known o) : ¬t.objects.Known o := by
  rintro ⟨address, member⟩
  obtain ⟨more, same, others⟩ := later.behind
  rw [same, List.mem_append] at member
  rcases member with new | old
  · exact Nat.not_lt.mpr (others _ new) inside
  · exact unknown ⟨address, old⟩

theorem trans (early : Evolves append s t) (late : Evolves append t u) : Evolves append s u := by
  refine ⟨Nat.le_trans early.size late.size, ?_, fun o inside unchanged => ?_,
    fun never => (early.results never).trans (late.results never)⟩
  · obtain ⟨more, same, new⟩ := early.behind
    obtain ⟨more', same', new'⟩ := late.behind
    refine ⟨more' ++ more, by rw [same', same, List.append_assoc], fun e member => ?_⟩
    rcases List.mem_append.mp member with last | middle
    · exact Nat.le_trans early.size (new' e last)
    · exact new e middle
  · have still : append = false ∨ ¬t.objects.Known o :=
      unchanged.imp_right fun unknown => early.unknown inside unknown
    rw [late.read o (Nat.lt_of_lt_of_le inside early.size) still, early.read o inside unchanged]

/-- There may be result lists that are not among the objects. -/
theorem push (s : Store) (ds : List Derivation) :
    Evolves append s { s with results := s.results.push ds } :=
  ⟨Nat.le_refl _, ⟨[], rfl, List.forall_mem_nil _⟩, fun _ _ _ => rfl, fun _ => .push _ ds⟩

end Evolves

namespace Fresh

/-- An object that has not been handed out stays as it is. -/
theorem later (fresh : Fresh before o ds s) (later : Evolves append s t) : Fresh before o ds t :=
  ⟨fresh.unused, Nat.lt_of_lt_of_le fresh.inside later.size,
    later.unknown fresh.inside fresh.unknown,
    (later.read o fresh.inside (.inr fresh.unknown)).trans fresh.holds⟩

/-- What was not there later was not there before. -/
theorem since (earlier : Evolves append before s) (fresh : Fresh s o ds t) :
    Fresh before o ds t :=
  { fresh with unused := Nat.le_trans earlier.size fresh.unused }

theorem readObject_bind {α : Type} (fresh : Fresh before o ds s) (f : List Derivation → Eval α) :
    (readObject o >>= f) s = f ds s := by
  rw [← fresh.holds]
  rfl

theorem extendObject_bind {α : Type} (fresh : Fresh before o ds s) (more : List Derivation)
    (f : Unit → Eval α) : (extendObject o more >>= f) s = f () (s.fill o (ds ++ more)) := by
  rw [← fresh.holds]
  rfl

end Fresh

theorem newObject_apply (ds : List Derivation) (s : Store) :
    newObject ds s = .ok s.objects.size (s.addObject ds) := rfl

theorem size_addObject (s : Store) (ds : List Derivation) :
    (s.addObject ds).objects.size = s.objects.size + 1 := Results.size_push _ _

theorem read_addObject (s : Store) (ds : List Derivation) (o : Nat) :
    (s.addObject ds).objects.read o = if o = s.objects.size then ds else s.objects.read o :=
  Results.read_push _ _ _

theorem size_fill (s : Store) (o : Nat) (ds : List Derivation) :
    (s.fill o ds).objects.size = s.objects.size := Results.size_write _ _ _

theorem read_fill_self (inside : o < s.objects.size) (ds : List Derivation) :
    (s.fill o ds).objects.read o = ds :=
  (Results.read_write _ _ _ _).trans (if_pos ⟨rfl, inside⟩)

theorem read_fill_of_ne (s : Store) (ds : List Derivation) (other : o' ≠ o) :
    (s.fill o' ds).objects.read o = s.objects.read o :=
  (Results.read_write _ _ _ _).trans (if_neg fun same => other same.1)

/-- What has not been handed out is not read at any address. -/
theorem results_fill_of_unknown (unknown : ¬s.objects.Known o) (ds : List Derivation) :
    (s.fill o ds).results = s.results := by
  have none : s.objects.behind.filter (·.2 = o) = [] := by
    rw [List.filter_eq_nil_iff]
    rintro ⟨address, other⟩ member same
    exact unknown ⟨address, of_decide_eq_true same ▸ member⟩
  unfold fill
  dsimp only
  rw [none]
  rfl

/-- Making an object does nothing to those that there are. -/
theorem evolves_addObject (later : Evolves append before s) (ds : List Derivation) :
    Evolves append before (s.addObject ds) := by
  refine later.trans ⟨?_, ⟨[], rfl, List.forall_mem_nil _⟩, fun o inside _ => ?_,
    fun _ => ⟨Nat.le_refl _, fun _ _ => rfl⟩⟩
  · rw [size_addObject]
    exact Nat.le_succ _
  · rw [read_addObject, if_neg (Nat.ne_of_lt inside)]

/-- Filling a new object does nothing to those that there were. -/
theorem evolves_fill (later : Evolves append before s) (fresh : Fresh before o ds s)
    (ds' : List Derivation) : Evolves append before (s.fill o ds') := by
  refine ⟨?_, later.behind, fun other inside unchanged => ?_, fun never => ?_⟩
  · rw [size_fill]
    exact later.size
  · have ne : o ≠ other := Nat.ne_of_gt (Nat.lt_of_lt_of_le inside fresh.unused)
    rw [read_fill_of_ne s ds' ne, later.read other inside unchanged]
  · rw [results_fill_of_unknown fresh.unknown]
    exact later.results never

/-- Handing a new object out does nothing to those that there were. -/
theorem evolves_handOut (later : Evolves append before s) (fresh : Fresh before o ds s) :
    Evolves append before (s.handOut o) := by
  obtain ⟨more, same, new⟩ := later.behind
  refine ⟨later.size, ⟨(s.results.size, o) :: more, ?_, ?_⟩, later.read, fun never => ?_⟩
  · exact congrArg _ same
  · exact List.forall_mem_cons.mpr ⟨fresh.unused, new⟩
  · exact (later.results never).trans (.push _ _)

/-- A new object is fresh. -/
theorem fresh_addObject (later : Evolves append before s)
    (inside : ∀ e ∈ s.objects.behind, e.2 < s.objects.size) (ds : List Derivation) :
    Fresh before s.objects.size ds (s.addObject ds) where
  unused := later.size
  inside := by
    rw [size_addObject]
    exact Nat.lt_succ_self _
  unknown := by
    rintro ⟨address, member⟩
    exact Nat.lt_irrefl _ (inside _ member)
  holds := by rw [read_addObject, if_pos rfl]

theorem fresh_fill (fresh : Fresh before o ds s) (ds' : List Derivation) :
    Fresh before o ds' (s.fill o ds') where
  unused := fresh.unused
  inside := by
    rw [size_fill]
    exact fresh.inside
  unknown := fresh.unknown
  holds := read_fill_self fresh.inside ds'

/-- An object stays as it is while another one is filled. -/
theorem fresh_fill_of_ne (fresh : Fresh before o ds s) (other : o' ≠ o)
    (ds' : List Derivation) : Fresh before o ds (s.fill o' ds') where
  unused := fresh.unused
  inside := by
    rw [size_fill]
    exact fresh.inside
  unknown := fresh.unknown
  holds := (read_fill_of_ne s ds' other).trans fresh.holds

theorem byValue_fill (unknown : ¬s.objects.Known o) (ds : List Derivation) :
    (s.fill o ds).byValue = s.byValue := by
  have same := results_fill_of_unknown unknown ds
  change { s with results := (s.fill o ds).results, objects := {} } = _
  rw [same]
  rfl

/-- An object has one address, and an address leads to one object. -/
theorem Coherent.eq_of_or {e e' : Nat × Nat} (coherent : s.Coherent)
    (member : e ∈ s.objects.behind) (member' : e' ∈ s.objects.behind)
    (same : e.1 = e'.1 ∨ e.2 = e'.2) : e = e' := by
  have symmetric : Std.Symm fun e e' : Nat × Nat => e.1 ≠ e'.1 ∧ e.2 ≠ e'.2 :=
    ⟨fun _ _ apart => ⟨apart.1.symm, apart.2.symm⟩⟩
  by_contra other
  have apart := coherent.distinct.forall member member' other
  exact same.elim apart.1 apart.2

theorem Coherent.filter_eq {address : Nat} (coherent : s.Coherent)
    (member : (address, o) ∈ s.objects.behind) :
    s.objects.behind.filter (·.2 = o) = [(address, o)] := by
  have distinct := coherent.distinct
  generalize s.objects.behind = behind at member distinct
  induction behind with
  | nil => cases member
  | cons e behind ih =>
    obtain ⟨others, distinct⟩ := List.pairwise_cons.mp distinct
    rcases List.mem_cons.mp member with same | member
    · subst same
      rw [List.filter_cons_of_pos (by simp), List.filter_eq_nil_iff.mpr]
      intro e' member' same'
      exact (others e' member').2 (of_decide_eq_true same').symm
    · have other : e.2 ≠ o := (others _ member).2
      rw [List.filter_cons_of_neg (by simpa using other), ih member distinct]

/-- In a coherent store, what is appended to an object is read at its address alone. -/
theorem Coherent.results_fill (coherent : s.Coherent) {address : Nat}
    (member : (address, o) ∈ s.objects.behind) (ds : List Derivation) :
    (s.fill o ds).results = s.results.write address ds := by
  unfold fill
  dsimp only
  rw [coherent.filter_eq member]
  rfl

@[simp] theorem byValue_settle (s : Store) (address : Nat) (p : Parser) :
    s.byValue.settle address p = (s.settle address p).byValue := by
  unfold settle
  by_cases inside : address < s.cells.size
  · rw [if_pos inside, if_pos (show address < s.byValue.cells.size from inside)]
    rfl
  · rw [if_neg inside, if_neg (show ¬address < s.byValue.cells.size from inside)]

namespace Coherent

/-- Nothing counts but result lists and objects. -/
theorem congr {t : Store} (coherent : s.Coherent) (results : t.results = s.results)
    (objects : t.objects = s.objects) : t.Coherent := by
  refine ⟨?_, ?_, objects ▸ coherent.distinct⟩
  · rw [results, objects]
    exact coherent.inside
  · rw [results, objects]
    exact coherent.read

/-- There may be result lists that are not among the objects. -/
theorem push (coherent : s.Coherent) (ds : List Derivation) :
    Coherent { s with results := s.results.push ds } := by
  refine ⟨fun e member => ⟨?_, (coherent.inside e member).2⟩, fun e member => ?_,
    coherent.distinct⟩
  · rw [Results.size_push]
    exact Nat.lt_succ_of_lt (coherent.inside e member).1
  · rw [Results.read_push, if_neg (Nat.ne_of_lt (coherent.inside e member).1)]
    exact coherent.read e member

theorem addObject (coherent : s.Coherent) (ds : List Derivation) : (s.addObject ds).Coherent := by
  refine ⟨fun e member => ?_, fun e member => ?_, coherent.distinct⟩
  · obtain ⟨known, inside⟩ := coherent.inside e member
    exact ⟨known, Nat.lt_of_lt_of_eq (Nat.lt_succ_of_lt inside) (size_addObject s ds).symm⟩
  · rw [read_addObject, if_neg (Nat.ne_of_lt (coherent.inside e member).2)]
    exact coherent.read e member

/-- An object may be changed that has not been handed out. -/
theorem fill (coherent : s.Coherent) (unknown : ¬s.objects.Known o) (ds : List Derivation) :
    (s.fill o ds).Coherent := by
  have results := results_fill_of_unknown unknown ds
  refine ⟨fun e member => ?_, fun e member => ?_, coherent.distinct⟩
  · rw [results, size_fill]
    exact coherent.inside e member
  · have other : o ≠ e.2 := fun same => unknown ⟨e.1, same ▸ member⟩
    rw [results, read_fill_of_ne s ds other]
    exact coherent.read e member

/-- An object may be handed out that has not been. -/
theorem handOut (coherent : s.Coherent) (inside : o < s.objects.size)
    (unknown : ¬s.objects.Known o) : (s.handOut o).Coherent := by
  have size : (s.handOut o).results.size = s.results.size + 1 := Results.size_push _ _
  have read (address : Nat) : (s.handOut o).results.read address =
      if address = s.results.size then s.objects.read o else s.results.read address :=
    Results.read_push _ _ _
  refine ⟨List.forall_mem_cons.mpr ⟨⟨?_, inside⟩, fun e member => ⟨?_, ?_⟩⟩,
    List.forall_mem_cons.mpr ⟨?_, fun e member => ?_⟩,
    List.pairwise_cons.mpr ⟨fun e member => ⟨?_, ?_⟩, coherent.distinct⟩⟩
  · rw [size]
    exact Nat.lt_succ_self _
  · rw [size]
    exact Nat.lt_succ_of_lt (coherent.inside e member).1
  · exact (coherent.inside e member).2
  · rw [read, if_pos rfl]
    rfl
  · rw [read, if_neg (Nat.ne_of_lt (coherent.inside e member).1)]
    exact coherent.read e member
  · exact Nat.ne_of_gt (coherent.inside e member).1
  · rintro rfl
    exact unknown ⟨e.1, member⟩

end Coherent

/-! ## Appending to what is at an address -/

theorem mem_of_lookup {address : Nat} (found : s.objects.behind.lookup address = some o) :
    (address, o) ∈ s.objects.behind := by
  obtain ⟨first, rest, same, -⟩ := List.lookup_eq_some_iff.mp found
  rw [same]
  exact List.mem_append_right _ List.mem_cons_self

theorem ne_of_lookup {address : Nat} (none : s.objects.behind.lookup address = none) :
    ∀ e ∈ s.objects.behind, address ≠ e.1 := fun e member =>
  bne_iff_ne.mp (List.lookup_eq_none_iff.mp none e member)

/-- Nothing is known that was not. -/
theorem behind_appendAt (s : Store) (address : Nat) (ds : List Derivation) :
    (s.appendAt address ds).objects.behind = s.objects.behind := by
  unfold appendAt
  split <;> rfl

theorem size_appendAt (s : Store) (address : Nat) (ds : List Derivation) :
    (s.appendAt address ds).objects.size = s.objects.size := by
  unfold appendAt
  split
  · exact size_fill s _ _
  · rfl

/-- No object but the one at the address changes. -/
theorem read_appendAt {address : Nat} (elsewhere : (address, o) ∉ s.objects.behind)
    (ds : List Derivation) : (s.appendAt address ds).objects.read o = s.objects.read o := by
  unfold appendAt
  split
  · next o' found =>
    exact read_fill_of_ne s _ fun same => elsewhere (same ▸ mem_of_lookup found)
  · rfl

/-- What has not been handed out is not appended to. -/
theorem evolves_appendAt (s : Store) (address : Nat) (ds : List Derivation) :
    Evolves true s (s.appendAt address ds) := by
  refine ⟨Nat.le_of_eq (size_appendAt s address ds).symm,
    ⟨[], behind_appendAt s address ds, List.forall_mem_nil _⟩, fun o _ unchanged => ?_, nofun⟩
  refine read_appendAt (fun member => ?_) ds
  exact unchanged.elim nofun fun unknown => unknown ⟨address, member⟩

namespace Coherent

/-- In a coherent store it makes no difference that there are objects: nothing else changes. -/
theorem results_appendAt (coherent : s.Coherent) (address : Nat) (ds : List Derivation) :
    (s.appendAt address ds).results =
      s.results.write address (s.results.read address ++ ds) := by
  unfold Store.appendAt
  split
  · next o found =>
    have member := mem_of_lookup found
    rw [coherent.results_fill member]
    exact congrArg _ (congrArg (· ++ ds) (coherent.read _ member))
  · rfl

theorem byValue_appendAt (coherent : s.Coherent) (address : Nat) (ds : List Derivation) :
    (s.appendAt address ds).byValue = s.byValue.appendTo address ds := by
  have results := coherent.results_appendAt address ds
  unfold Store.appendAt at results ⊢
  split
  · next o found =>
    rw [found] at results
    change { s with results := (s.fill o _).results, objects := {} } = _
    rw [results]
    rfl
  · rfl

theorem appendAt (coherent : s.Coherent) (address : Nat) (ds : List Derivation) :
    (s.appendAt address ds).Coherent := by
  have results := coherent.results_appendAt address ds
  have behind := behind_appendAt s address ds
  refine ⟨fun e member => ?_, fun e member => ?_, behind ▸ coherent.distinct⟩
  · rw [results, Results.size_write, size_appendAt]
    exact coherent.inside e (behind ▸ member)
  rw [behind] at member
  have read := coherent.read e member
  rw [results, Results.read_write]
  split
  · next here =>
    -- The object of this address is the one that is appended to.
    obtain ⟨rfl, inside⟩ := here
    unfold Store.appendAt
    split
    · next o found =>
      have same : e = (e.1, o) := coherent.eq_of_or member (mem_of_lookup found) (.inl rfl)
      have object : e.2 = o := congrArg Prod.snd same
      rw [← object, read_fill_self (coherent.inside e member).2, read]
    · next none => exact absurd rfl (ne_of_lookup none e member)
  · next elsewhere =>
    refine (read_appendAt (fun member' => ?_) ds).trans read
    have same : e.1 = address := (congrArg Prod.fst
      (coherent.eq_of_or member member' (.inr rfl)))
    exact elsewhere ⟨same.symm, (coherent.inside e member).1⟩

end Coherent

/-- What is appended at one address is read at another one if an object is handed out twice. -/
example (d : Derivation) :
    let shared := ((Store.initial.addObject []).handOut 0).handOut 0
    (shared.appendAt 0 [d]).results.read 1 = [d] := rfl

end Store

end GrammarKit
