import GrammarKit.Proofs.Branching.Chains

/-! # Elements divided by separators

A list of elements has a first element and then, along a path, one element after each separator. The
elements on the path are put into the list as they are. The first one is made a list of its own,
which keeps it as one element unless it is a list or a tuple already: then its items are put there
in place of it.
-/

namespace GrammarKit

/-- What follows a separator, as derivations of the element after it. -/
def followDerivations (elements separators : Value → List Derivation) (v : Value) :
    List Derivation :=
  (separators v).flatMap fun d => elements d.remainder

/-- The lists of elements divided by separators: for each first element and each path of elements
after it, in order, what `front` makes of the first one and then the others, and what is left at
the end of the path. -/
def separated (extent : Value → Nat) (front : Value → List Value)
    (elements separators : Value → List Derivation) (starts : List Derivation) :
    List Derivation :=
  starts.flatMap fun d =>
    (paths extent (steps (followDerivations elements separators)) d.remainder).map fun path =>
      ⟨.list (front d.value ++ path.map Prod.fst), remainderAfter d.remainder path⟩

/-- What is neither list nor tuple is the only item of its list. -/
theorem Value.toList_eq_singleton {v : Value} (single : v.listOrTuple? = Option.none) :
    v.toList = [v] := by
  cases v with
  | list _ | tuple _ | derivation _ _ => cases single
  | _ => rfl

variable {extent : Value → Nat} {front front' : Value → List Value}
  {elements separators : Value → List Derivation} {starts : List Derivation}

/-- Only what is made of the first elements matters. -/
theorem separated_congr (same : ∀ d ∈ starts, front d.value = front' d.value) :
    separated extent front elements separators starts =
      separated extent front' elements separators starts := by
  simp only [separated, List.flatMap_def]
  congr 1
  refine List.map_congr_left fun d member => ?_
  rw [same d member]

theorem separated_ne_nil (some_ : starts ≠ []) :
    separated extent front elements separators starts ≠ [] := by
  obtain ⟨d, rest, rfl⟩ := List.exists_cons_of_ne_nil some_
  have after := paths_ne_nil extent (steps (followDerivations elements separators)) d.remainder
  rw [separated, List.flatMap_cons]
  exact List.append_ne_nil_of_left_ne_nil (by simpa using after) _

namespace Effects

variable {b : Effects} {inputs between : Value → Prop} {p sep : Parser} {x empty : Value}

/-- Separators with elements. -/
theorem Enumerates.bind_element (separator : b.Enumerates inputs between sep separators)
    (element : b.Enumerates between inputs p elements) :
    b.Enumerates inputs inputs (sep.bind (.parser p) (.bool false))
      (followDerivations elements separators) where
  yields := by
    intro v input
    have first := separator.yields v input
    rw [← List.map_id (separators v)] at first
    exact yields_bind_flatMap id first fun d member =>
      element.yields _ (separator.leaves v input d member)
  leaves := by
    intro v input e member
    obtain ⟨d, first, second⟩ := List.mem_flatMap.mp member
    exact element.leaves _ (separator.leaves v input d first) e second

/-- The joining of the first element with the others. -/
theorem gives_listJoin (head : Value) (vs : List Value) :
    b.Gives (.function (.listJoin head)) [.list vs] (.ok (.list (head.toList ++ vs))) :=
  .of_step (fun _ => rfl) (.lift (.ok (Value.list (head.toList ++ vs))))

/-- After the first element: the list along each path. -/
theorem yields_joined (following : b.Enumerates inputs inputs (sep.bind (.parser p) (.bool false))
      (followDerivations elements separators))
    (measured : b.Measures extent inputs) {d : Derivation} (input : inputs d.remainder)
    (shown : ∀ e ∈ separated extent Value.toList elements separators [d], b.Shows e.value) :
    b.Yields (((sep.bind (.parser p) (.bool false)).manyOrNone .missing .sequence).step
        (.listJoin d.value)) d.remainder
      (.ok (separated extent Value.toList elements separators [d])) := by
  rw [separated, List.flatMap_singleton] at shown ⊢
  rw [List.map_eq_flatMap]
  refine yields_step_flatMap rfl _ (following.yields_manyOrNone measured input)
    (fun path _ => gives_listJoin d.value (path.map Prod.fst)) fun path member => ?_
  exact yields_result (shown _ (List.mem_map_of_mem member))
    (following.shows_remainderAfter input member) (by nofun)

/-- Elements divided by separators, where there is a first one. -/
theorem yields_sepBy (element : b.Enumerates between inputs p elements)
    (separator : b.Enumerates inputs between sep separators) (measured : b.Measures extent inputs)
    (first : b.Yields p x (.ok starts)) (some_ : starts ≠ [])
    (left : ∀ d ∈ starts, inputs d.remainder)
    (shown : ∀ e ∈ separated extent Value.toList elements separators starts, b.Shows e.value)
    (other : b.Shows (Parser.asParser empty).toValue) :
    b.Yields (p.sepBy sep empty) x
      (.ok (separated extent Value.toList elements separators starts)) := by
  have following := separator.bind_element element
  have whole : b.Yields (p.step (.listRest (sep.bind (.parser p) (.bool false)))) x
      (.ok (separated extent Value.toList elements separators starts)) := by
    rw [← List.map_id starts] at first
    refine yields_step_flatMap rfl id first (fun d _ => gives_next fun _ => rfl)
      fun d member => ?_
    have after := yields_joined following measured (left d member) fun e inside => shown e ?_
    · rw [separated, List.flatMap_singleton] at after
      exact after
    · rw [separated, List.flatMap_singleton] at inside
      exact List.mem_flatMap.mpr ⟨d, member, inside⟩
  have lists : separated extent Value.toList elements separators starts ≠ [] :=
    separated_ne_nil some_
  obtain ⟨e, rest, found⟩ := List.exists_cons_of_ne_nil lists
  rw [found] at whole ⊢
  exact .of_process (shows_orElse whole.shown other) first.read rfl rfl
    (settles_orElse_left whole.settles)

/-- The value of elements divided by separators is the list of the elements, the first one and then
those along a path, as long as the first one is neither list nor tuple; of a list or a tuple the
list has the items. Every first element and every path after it is one derivation, in order, and the
paths are the maximal ones in lexicographic order of the choices made. -/
theorem sepBy_yields_lists (element : b.Enumerates between inputs p elements)
    (separator : b.Enumerates inputs between sep separators) (measured : b.Measures extent inputs)
    (first : b.Yields p x (.ok starts)) (some_ : starts ≠ [])
    (left : ∀ d ∈ starts, inputs d.remainder)
    (shown : ∀ e ∈ separated extent Value.toList elements separators starts, b.Shows e.value)
    (other : b.Shows (Parser.asParser empty).toValue) :
    b.Yields (p.sepBy sep empty) x
        (.ok (separated extent Value.toList elements separators starts)) ∧
      ((∀ d ∈ starts, d.value.listOrTuple? = none) →
        b.Yields (p.sepBy sep empty) x
          (.ok (separated extent (fun v => [v]) elements separators starts))) ∧
      ∀ v, ListsMaximal extent (steps (followDerivations elements separators)) v
        (paths extent (steps (followDerivations elements separators)) v) := by
  have whole := yields_sepBy element separator measured first some_ left shown other
  refine ⟨whole, fun single => ?_, listsMaximal_paths extent _⟩
  have same : separated extent Value.toList elements separators starts =
      separated extent (fun v => [v]) elements separators starts :=
    separated_congr fun d member => Value.toList_eq_singleton (single d member)
  rwa [same] at whole

end Effects

/-! ## Characters as separators -/

namespace Parser

/-- The first character. -/
def oneItem : Value → List Derivation
  | .text (c :: cs) => [⟨.text [c], .text cs⟩]
  | _ => []

theorem enumerates_item :
    (Effects.messages Store.initial).Enumerates endsOfAbc endsOfAbc item oneItem where
  yields := by
    rintro v (rfl | rfl | rfl | rfl)
    · exact Effects.yields_item_cons 'a' ['b', 'c']
    · exact Effects.yields_item_cons 'b' ['c']
    · exact Effects.yields_item_cons 'c' []
    · exact Effects.yields_item_nil
  leaves := by
    rintro v (rfl | rfl | rfl | rfl)
    all_goals simp [oneItem, endsOfAbc]

/-- Where no element comes after the only separator, a path ends. -/
theorem paths_oneItem {elements : Value → List Derivation} (c : Char)
    (fails : elements (.text []) = []) : paths (·.extent Store.initial.results)
      (steps (followDerivations elements oneItem)) (.text [c]) = [[]] :=
  paths_of_eq_nil (by simp [steps, followDerivations, oneItem, fails])

theorem paths_oneOrTwo :
    paths (·.extent Store.initial.results) (steps (followDerivations oneOrTwo oneItem))
        (.text ['b', 'c']) = [[(.text ['c'], .text [])]] ∧
    paths (·.extent Store.initial.results) (steps (followDerivations oneOrTwo oneItem))
        (.text ['c']) = [[]] := by
  have nothing : paths (·.extent Store.initial.results)
      (steps (followDerivations oneOrTwo oneItem)) (.text []) = [[]] := paths_of_eq_nil rfl
  refine ⟨?_, paths_oneItem 'c' rfl⟩
  rw [paths_of_ne_nil (by simp [steps, followDerivations, oneItem, oneOrTwo])]
  simp [steps, followDerivations, oneItem, oneOrTwo, Derivation.toStep, pathsThrough, nothing]

/-- Elements of one or two characters, divided by any character: two ways to read a text. -/
theorem sepBy_yields_two_lists : (Effects.messages Store.initial).Yields
    ((ofShape (.splits [.int 1, .int 2])).sepBy item (.text [])) (.text ['a', 'b', 'c'])
      (.ok [⟨.list [.text ['a'], .text ['c']], .text []⟩, ⟨.list [.text ['a', 'b']], .text ['c']⟩])
    := by
  have element : (Effects.messages Store.initial).Enumerates endsOfAbc endsOfAbc
      (ofShape (.splits [.int 1, .int 2])) oneOrTwo := Effects.enumerates_oneOrTwo rfl
  have input : endsOfAbc (.text ['a', 'b', 'c']) := .inl rfl
  have measured : (Effects.messages Store.initial).Measures _ endsOfAbc :=
    Effects.measures_endsOfAbc Store.initial.results
  have other : (Effects.messages Store.initial).Shows (asParser (.text [])).toValue := .of_quiet rfl
  have whole := (Effects.sepBy_yields_lists element enumerates_item measured
    (element.yields _ input) (by simp [oneOrTwo]) (element.leaves _ input)
    (fun _ _ => .of_quiet rfl) other).2.1 (by simp [oneOrTwo, Value.listOrTuple?, Value.tuple?])
  have two : separated (·.extent Store.initial.results) (fun v => [v]) oneOrTwo oneItem
      (oneOrTwo (.text ['a', 'b', 'c'])) =
        [⟨.list [.text ['a'], .text ['c']], .text []⟩,
          ⟨.list [.text ['a', 'b']], .text ['c']⟩] := by
    obtain ⟨through, stops⟩ := paths_oneOrTwo
    simp only [separated, oneOrTwo, List.flatMap_cons, List.flatMap_nil, through, stops]
    rfl
  rwa [two] at whole

/-- A function that puts a value in a list. -/
def listing : Callback :=
  .closure [⟨"v", .standard, none⟩] (.apply (.operator .list) [.variable "v"]) []

/-- The first character in a list. -/
def oneList : Value → List Derivation
  | .text (c :: cs) => [⟨.list [.text [c]], .text cs⟩]
  | _ => []

theorem gives_listing (v : Value) :
    (Effects.messages Store.initial).Gives (.function listing) [v] (.ok (.list [v])) := by
  refine ⟨4, fun n deep s' logs => ⟨s', logs, ?_⟩⟩
  obtain ⟨n, rfl⟩ : ∃ k, n = k + 4 := ⟨n - 4, by omega⟩
  rfl

theorem enumerates_listing : (Effects.messages Store.initial).Enumerates endsOfAbc endsOfAbc
    (item.step listing) oneList where
  yields := by
    intro v input
    have first := enumerates_item.yields v input
    rw [← List.map_id (oneItem v)] at first
    have each : (Effects.messages Store.initial).Yields (item.step listing) v
        (.ok ((oneItem v).flatMap fun d => [⟨.list [d.value], d.remainder⟩])) :=
      Effects.yields_step_flatMap rfl id first (fun d _ => gives_listing d.value)
        fun d _ => Effects.yields_result (.of_quiet rfl) (.of_quiet rfl) (by nofun)
    rcases input with rfl | rfl | rfl | rfl
    all_goals exact each
  leaves := by
    rintro v (rfl | rfl | rfl | rfl)
    all_goals simp [oneList, endsOfAbc]

theorem separated_oneList (front : Value → List Value) :
    separated (·.extent Store.initial.results) front oneList oneItem
        (oneList (.text ['a', 'b', 'c'])) =
      [⟨.list (front (.list [.text ['a']]) ++ [.list [.text ['c']]]), .text []⟩] := by
  have nothing : paths (·.extent Store.initial.results)
      (steps (followDerivations oneList oneItem)) (.text []) = [[]] := paths_of_eq_nil rfl
  simp only [separated, oneList, List.flatMap_cons, List.flatMap_nil]
  rw [paths_of_ne_nil (by simp [steps, followDerivations, oneItem, oneList])]
  simp [steps, followDerivations, oneItem, oneList, Derivation.toStep, pathsThrough, nothing,
    remainderAfter]

/-- Elements that are lists themselves: the list of them has the items of the first one in place of
it, but the others as they are. -/
theorem sepBy_yields_items_of_first : (Effects.messages Store.initial).Yields
    ((item.step listing).sepBy item (.text [])) (.text ['a', 'b', 'c'])
      (.ok [⟨.list [.text ['a'], .list [.text ['c']]], .text []⟩]) ∧
    ¬ (Effects.messages Store.initial).Yields
      ((item.step listing).sepBy item (.text [])) (.text ['a', 'b', 'c'])
      (.ok [⟨.list [.list [.text ['a']], .list [.text ['c']]], .text []⟩]) := by
  have input : endsOfAbc (.text ['a', 'b', 'c']) := .inl rfl
  have measured : (Effects.messages Store.initial).Measures _ endsOfAbc :=
    Effects.measures_endsOfAbc Store.initial.results
  have other : (Effects.messages Store.initial).Shows (asParser (.text [])).toValue := .of_quiet rfl
  have whole := Effects.yields_sepBy enumerates_listing enumerates_item measured
    (enumerates_listing.yields _ input) (by simp [oneList]) (enumerates_listing.leaves _ input)
    (fun _ _ => .of_quiet rfl) other
  rw [separated_oneList] at whole
  refine ⟨whole, fun kept => ?_⟩
  have same := whole.settles.unique (Store.Logs.refl _) kept.settles
  simp [Value.toList] at same

end Parser

end GrammarKit
