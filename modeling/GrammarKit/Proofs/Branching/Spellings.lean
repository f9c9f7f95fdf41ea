import GrammarKit.Proofs.Branching.Paths
import GrammarKit.Proofs.Sequence

/-! # Ways to spell a sequence

A sequence is spelled by matching its items one after the other, each on what the match before it
has left. An item may have several matches, so there may be several ways. Where a part of the
sequence is enough, a way may stop before it has come to the end, but only where nothing matches the
next item.
-/

namespace GrammarKit

section

variable (matching : Value → Value → List Derivation) (short : Bool)

/-- All ways to spell items from an input on, in lexicographic order of the choices made:
`matching t y` are the matches of the item `t` on `y`. -/
def spellings : List Value → Value → List (List Derivation)
  | [], _ => [[]]
  | t :: ts, y =>
    if short && (matching t y).isEmpty then [[]]
    else (matching t y).flatMap fun d => (spellings ts d.remainder).map (d :: ·)

/-- Whether derivations are a way to spell items from an input on. -/
inductive IsSpelling : List Value → Value → List Derivation → Prop where
  | done {y : Value} : IsSpelling [] y []
  | stop {t y : Value} {ts : List Value} : short = true → matching t y = [] →
    IsSpelling (t :: ts) y []
  | next {t y : Value} {ts : List Value} {d : Derivation} {path : List Derivation} :
    d ∈ matching t y → IsSpelling ts d.remainder path → IsSpelling (t :: ts) y (d :: path)

variable {matching : Value → Value → List Derivation} {short : Bool} {t y : Value}
  {ts : List Value} {path : List Derivation}

theorem spellings_cons_of_stop (may : short = true) (none : matching t y = []) :
    spellings matching short (t :: ts) y = [[]] := by
  rw [spellings, if_pos (by simp [may, none])]

theorem spellings_cons (go : short = false ∨ matching t y ≠ []) :
    spellings matching short (t :: ts) y =
      (matching t y).flatMap fun d => (spellings matching short ts d.remainder).map (d :: ·) := by
  rw [spellings, if_neg]
  rcases go with whole | some_
  · simp [whole]
  · simp [some_]

theorem mem_spellings_iff (ts : List Value) (y : Value) (path : List Derivation) :
    path ∈ spellings matching short ts y ↔ IsSpelling matching short ts y path := by
  induction ts generalizing y path with
  | nil =>
    rw [spellings, List.mem_singleton]
    constructor
    · rintro rfl
      exact .done
    · intro way
      cases way
      rfl
  | cons t ts ih =>
    by_cases stops : short = true ∧ matching t y = []
    · rw [spellings_cons_of_stop stops.1 stops.2, List.mem_singleton]
      constructor
      · rintro rfl
        exact .stop stops.1 stops.2
      · intro way
        cases way with
        | stop _ _ => rfl
        | next member _ => simp [stops.2] at member
    · rw [spellings_cons (by simpa [Classical.or_iff_not_imp_left] using stops), List.mem_flatMap]
      constructor
      · rintro ⟨d, member, inside⟩
        obtain ⟨rest, way, rfl⟩ := List.mem_map.mp inside
        exact .next member ((ih _ _).mp way)
      · intro way
        cases way with
        | stop may none => exact absurd ⟨may, none⟩ stops
        | next member rest =>
          exact ⟨_, member, List.mem_map_of_mem ((ih _ _).mpr rest)⟩

/-- Where the matches are sorted, the ways are sorted by the first choice in which they differ. -/
theorem spellings_pairwise_lex {inputs : Value → Prop} {lt : Derivation → Derivation → Prop}
    (closed : ∀ t y, inputs y → ∀ d ∈ matching t y, inputs d.remainder)
    (sorted : ∀ t y, inputs y → (matching t y).Pairwise lt) (ts : List Value) (input : inputs y) :
    (spellings matching short ts y).Pairwise (List.Lex lt) := by
  induction ts generalizing y with
  | nil => exact List.pairwise_singleton _ _
  | cons t ts ih =>
    rw [spellings]
    split
    · exact List.pairwise_singleton _ _
    · rw [List.pairwise_flatMap]
      constructor
      · intro d member
        exact List.pairwise_map.mpr ((ih (closed t y input d member)).imp .cons)
      · refine (sorted t y input).imp fun before path member path' member' => ?_
        obtain ⟨_, _, rfl⟩ := List.mem_map.mp member
        obtain ⟨_, _, rfl⟩ := List.mem_map.mp member'
        exact .rel before

/-- If a part is enough, there is always a way. -/
theorem spellings_ne_nil (ts : List Value) (y : Value) : spellings matching true ts y ≠ [] := by
  induction ts generalizing y with
  | nil => exact List.cons_ne_nil _ _
  | cons t ts ih =>
    cases found : matching t y with
    | nil => simp [spellings_cons_of_stop rfl found]
    | cons d ds =>
      rw [spellings_cons (.inr (by simp [found])), found, List.flatMap_cons]
      exact List.append_ne_nil_of_left_ne_nil (by simpa using ih d.remainder) _

theorem IsSpelling.length_le (way : IsSpelling matching short ts y path) :
    path.length ≤ ts.length := by
  induction way with
  | done => exact Nat.le_refl 0
  | stop _ _ => exact Nat.zero_le _
  | next _ _ ih => exact Nat.succ_le_succ ih

/-- Only where a part is enough, a way is shorter than the sequence. -/
theorem IsSpelling.length_eq (way : IsSpelling matching false ts y path) :
    path.length = ts.length := by
  induction way with
  | done => rfl
  | stop may _ => cases may
  | next _ _ ih => exact congrArg (· + 1) ih

end

/-! ## Ways with a first match -/

section

variable (matching : Value → Value → List Derivation) (short : Bool)

/-- The ways to spell items that match one of them at least. -/
def someSpellings (ts : List Value) (y : Value) : List (List Derivation) :=
  (spellings matching short ts y).filter (!·.isEmpty)

variable {matching : Value → Value → List Derivation} {short : Bool} {t y : Value}
  {ts : List Value}

theorem mem_someSpellings_iff (ts : List Value) (y : Value) (path : List Derivation) :
    path ∈ someSpellings matching short ts y ↔
      path ≠ [] ∧ IsSpelling matching short ts y path := by
  rw [someSpellings, List.mem_filter, mem_spellings_iff, and_comm]
  cases path <;> simp

/-- A first match comes before every way to spell the other items. -/
theorem someSpellings_cons : someSpellings matching short (t :: ts) y =
    (matching t y).flatMap fun d => (spellings matching short ts d.remainder).map (d :: ·) := by
  by_cases stops : short = true ∧ matching t y = []
  · rw [someSpellings, spellings_cons_of_stop stops.1 stops.2, stops.2]
    rfl
  · rw [someSpellings, spellings_cons (by simpa [Classical.or_iff_not_imp_left] using stops)]
    refine List.filter_eq_self.mpr fun path member => ?_
    obtain ⟨d, _, inside⟩ := List.mem_flatMap.mp member
    obtain ⟨_, _, rfl⟩ := List.mem_map.mp inside
    rfl

/-- All ways, if those with a first match are known: the empty one is left, if no match is
needed. -/
theorem spellings_eq (ts : List Value) (y : Value) : spellings matching short ts y =
    if someSpellings matching short ts y = [] then (if short || ts.isEmpty then [[]] else [])
    else someSpellings matching short ts y := by
  cases ts with
  | nil => simp [someSpellings, spellings]
  | cons t ts =>
    by_cases stops : short = true ∧ matching t y = []
    · rw [someSpellings_cons, spellings_cons_of_stop stops.1 stops.2]
      simp [stops]
    · have same : spellings matching short (t :: ts) y =
          someSpellings matching short (t :: ts) y := by
        rw [someSpellings_cons,
          spellings_cons (by simpa [Classical.or_iff_not_imp_left] using stops)]
      rw [← same]
      split
      · next none =>
        cases short with
        | true => exact absurd none (spellings_ne_nil _ _)
        | false => simpa using none
      · rfl

end

/-! ## Matches that spell a whole -/

section

variable {derivations : Value → List Derivation} {same : Value → Value → Bool} {short : Bool}
  {t y : Value} {ts : List Value} {path : List Derivation}

/-- The derivations whose values are the same as an item. -/
def matchesOf (derivations : Value → List Derivation) (same : Value → Value → Bool) (t y : Value) :
    List Derivation :=
  (derivations y).filter fun d => same d.value t

/-- What holds of all derivations holds of those on every way, and what these preserve holds of what
is left at its end. -/
theorem IsSpelling.forall_mem {inputs : Value → Prop} {P : Derivation → Prop}
    (closed : ∀ v, inputs v → ∀ d ∈ derivations v, inputs d.remainder)
    (holds : ∀ v, inputs v → ∀ d ∈ derivations v, P d)
    (way : IsSpelling (matchesOf derivations same) short ts y path) (input : inputs y) :
    (∀ d ∈ path, P d) ∧ inputs (remainderAfter y (path.map Derivation.toStep)) := by
  induction way with
  | done | stop _ _ => exact ⟨List.forall_mem_nil _, input⟩
  | next member _ ih =>
    have inside := (List.mem_filter.mp member).1
    obtain ⟨others, left⟩ := ih (closed _ input _ inside)
    exact ⟨List.forall_mem_cons.mpr ⟨holds _ input _ inside, others⟩, left⟩

end

/-! ## The items of a sequence -/

/-- How many items at the beginning of two sequences agree. -/
def agreeing (same : Value → Value → Bool) : List Value → List Value → Nat
  | v :: vs, t :: ts => if same v t then agreeing same vs ts + 1 else 0
  | _, _ => 0

section

variable {same : Value → Value → Bool} {vs ts : List Value}

/-- So many items agree as long as there are items on both sides and each is the same as the
other. -/
theorem le_agreeing_iff (k : Nat) : k ≤ agreeing same vs ts ↔
    ∀ i < k, ∃ v t, vs[i]? = some v ∧ ts[i]? = some t ∧ same v t = true := by
  induction vs generalizing ts k with
  | nil => cases k with
    | zero => simp
    | succ k =>
      refine ⟨fun beyond => absurd beyond (Nat.not_succ_le_zero k), fun all => ?_⟩
      obtain ⟨_, _, missing, _⟩ := all 0 (Nat.succ_pos k)
      cases missing
  | cons v vs ih => cases ts with
    | nil => cases k with
      | zero => simp
      | succ k =>
        refine ⟨fun beyond => absurd beyond (Nat.not_succ_le_zero k), fun all => ?_⟩
        obtain ⟨_, _, _, missing, _⟩ := all 0 (Nat.succ_pos k)
        cases missing
    | cons t ts => cases k with
      | zero => simp
      | succ k =>
        rw [Nat.forall_lt_succ_left]
        by_cases first : same v t = true
        · simp only [agreeing, first, if_true, Nat.succ_le_succ_iff, ih]
          simp [first]
        · simp [agreeing, first]


theorem agreeing_le_left : agreeing same vs ts ≤ vs.length := by
  induction vs generalizing ts with
  | nil => exact Nat.le_refl 0
  | cons v vs ih => cases ts with
    | nil => exact Nat.zero_le _
    | cons t ts =>
      rw [agreeing]
      split
      · exact Nat.succ_le_succ ih
      · exact Nat.zero_le _

end

/-- The first item of a sequence, and what is left without it. -/
def Value.firstItem (v : Value) : List Derivation :=
  match v.elements with
  | [] => []
  | e :: _ => [⟨e, v.drop 1⟩]

/-- The first items of a sequence, one after the other. -/
def Value.firstItems : Nat → Value → List Derivation
  | 0, _ => []
  | k + 1, v => v.firstItem ++ firstItems k (v.drop 1)

section

variable {same : Value → Value → Bool} {short : Bool}

/-- There is one way at most to spell items by those of a sequence: as far as they agree. -/
theorem spellings_firstItem (ts : List Value) (y : Value) :
    spellings (matchesOf Value.firstItem same) short ts y =
      if short || agreeing same y.elements ts == ts.length then
        [y.firstItems (agreeing same y.elements ts)]
      else [] := by
  induction ts generalizing y with
  | nil =>
    have none : agreeing same y.elements [] = 0 := by cases y.elements <;> rfl
    simp [spellings, none, Value.firstItems]
  | cons t ts ih =>
    cases items : y.elements with
    | nil =>
      have nothing : matchesOf Value.firstItem same t y = [] := by
        simp [matchesOf, Value.firstItem, items]
      simp [spellings, nothing, agreeing, Value.firstItems]
    | cons e es =>
      have after : (y.drop 1).elements = es := by rw [Value.elements_drop, items]; rfl
      cases first : same e t with
      | false =>
        have nothing : matchesOf Value.firstItem same t y = [] := by
          simp [matchesOf, Value.firstItem, items, first]
        simp [spellings, nothing, agreeing, first, Value.firstItems]
      | true =>
        have one : matchesOf Value.firstItem same t y = [⟨e, y.drop 1⟩] := by
          simp [matchesOf, Value.firstItem, items, first]
        rw [spellings_cons (.inr (by simp [one])), one]
        simp only [List.flatMap_singleton, ih, after, agreeing, first, if_true, List.length_cons]
        by_cases whole : (short || agreeing same es ts == ts.length) = true
        · simp [whole, Value.firstItems, Value.firstItem, items]
        · simp [whole]

/-- The values of the first items. -/
theorem map_value_firstItems (k : Nat) (y : Value) :
    (y.firstItems k).map (·.value) = y.elements.take k := by
  induction k generalizing y with
  | zero => rfl
  | succ k ih =>
    rw [Value.firstItems, List.map_append, ih, Value.elements_drop, Value.firstItem]
    cases y.elements <;> simp

/-- What is left without the first items. -/
theorem remainderAfter_firstItems (k : Nat) (y : Value) (inside : k ≤ y.elements.length) :
    remainderAfter y ((y.firstItems k).map Derivation.toStep) = y.drop k := by
  induction k generalizing y with
  | zero => exact y.drop_zero.symm
  | succ k ih =>
    cases items : y.elements with
    | nil => simp [items] at inside
    | cons e es =>
      have after : (y.drop 1).elements = es := by rw [Value.elements_drop, items]; rfl
      have rest := ih (y.drop 1) (by rw [after]; simpa [items] using inside)
      rw [Value.drop_drop, Nat.add_comm] at rest
      simpa [Value.firstItems, Value.firstItem, items, remainderAfter, Derivation.toStep]
        using rest

end

/-! ## Derivations for ways to spell -/

/-- The value for a way to spell a sequence: of a text, as much of it as has been matched, else the
list of the values. -/
def spelledValue (expected : Value) (path : List Derivation) : Value :=
  match expected with
  | .text cs => .text (cs.take path.length)
  | _ => .list (path.map (·.value))

/-- The derivations for the ways to spell a sequence that match its first item at least. -/
def spelled (matching : Value → Value → List Derivation) (short : Bool) (expected x : Value) :
    List Derivation :=
  (someSpellings matching short expected.elements x).map fun path =>
    ⟨spelledValue expected path, remainderAfter x (path.map Derivation.toStep)⟩

/-- As much of a sequence as has been matched by the first items of another one, with the kind that
such values have. -/
def spelledPrefix (expected x : Value) (k : Nat) : Value :=
  match expected with
  | .text cs => .text (cs.take k)
  | _ => .list (x.elements.take k)

/-- To spell a sequence by the items of another one is to find out how far they agree. -/
theorem spelled_firstItem {same : Value → Value → Bool} (short : Bool) (expected x : Value) :
    spelled (matchesOf Value.firstItem same) short expected x =
      let k := agreeing same x.elements expected.elements
      if k ≠ 0 ∧ (short = true ∨ k = expected.elements.length) then
        [⟨spelledPrefix expected x k, x.drop k⟩]
      else [] := by
  have inside : agreeing same x.elements expected.elements ≤ x.elements.length := agreeing_le_left
  rw [spelled, someSpellings, spellings_firstItem]
  generalize agreeing same x.elements expected.elements = k at inside
  have count : (x.firstItems k).length = k := by
    rw [← List.length_map (f := (·.value)), map_value_firstItems, List.length_take]
    exact Nat.min_eq_left inside
  have value : spelledValue expected (x.firstItems k) = spelledPrefix expected x k := by
    cases expected with
    | text cs => rw [spelledValue, spelledPrefix, count]
    | _ => exact congrArg Value.list (map_value_firstItems k x)
  by_cases whole : (short || k == expected.elements.length) = true
  · have whole' : short = true ∨ k = expected.elements.length := by simpa using whole
    rw [if_pos whole]
    by_cases some_ : k = 0
    · subst some_
      simp [Value.firstItems]
    · have kept : (x.firstItems k).isEmpty = false := by
        rw [List.isEmpty_eq_false_iff, ← List.length_pos_iff, count]
        exact Nat.pos_of_ne_zero some_
      rw [if_pos ⟨some_, whole'⟩, List.filter_cons_of_pos (by rw [kept]; rfl), List.filter_nil,
        List.map_singleton, value, remainderAfter_firstItems k x inside]
  · have part : ¬ (k ≠ 0 ∧ (short = true ∨ k = expected.elements.length)) := by
      rintro ⟨-, whole'⟩
      exact whole (by simpa using whole')
    rw [if_neg whole, if_neg part]
    rfl

end GrammarKit
