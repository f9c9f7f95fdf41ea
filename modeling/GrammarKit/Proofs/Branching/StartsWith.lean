import GrammarKit.Proofs.Branching.Filtering
import GrammarKit.Proofs.Branching.Spellings
import GrammarKit.Proofs.Effects.Equality

/-! # Matching a sequence item by item

The parser for a sequence matches its first item and then, whether or not that succeeds, joins it to
what the parser for the rest has matched. Whether the rest failed because it is empty or because it
does not match is told afterwards, by comparing what has been joined with the whole. That gives
exactly the ways to spell the sequence, in their order, as long as the values of the parser can be
compared with the items at all.
-/

namespace GrammarKit

namespace Parser

/-- The parser for a plain sequence. -/
def speller (p : Parser) (expected allowShort : Value) : Parser :=
  match expected.elements with
  | [] => zero
  | head :: _ => (p.equals head).step (.spellRest p expected allowShort)

variable {p : Parser} {expected : Value}

theorem spell_of_isSequence (sequence : expected.IsSequence) (results : Results)
    (allowShort : Value) : p.spell results expected allowShort =
      .ok (p.speller expected allowShort) := by
  rw [spell, Value.uncons?_of_isSequence sequence, speller]
  cases expected.elements <;> rfl

/-- There is a parser for every plain sequence that has an item. -/
theorem startsWith_of_isSequence (sequence : expected.IsSequence) (some_ : expected.width ≠ 0)
    (results : Results) (allowShort : Value) : p.startsWith results expected allowShort =
      .ok (p.speller expected allowShort) := by
  rw [startsWith, Value.length_of_isSequence sequence, spell_of_isSequence sequence]
  exact if_neg some_

/-- There is no parser for the empty text. -/
theorem eq_speller_of_startsWith {q : Parser} {results : Results} {cs : List Char}
    {allowShort : Value} (made : p.startsWith results (.text cs) allowShort = .ok q) :
    ∃ c rest, cs = c :: rest ∧ q = p.speller (.text (c :: rest)) allowShort := by
  cases cs with
  | nil => cases made
  | cons c rest =>
    have text : (Value.text (c :: rest)).IsSequence := trivial
    rw [startsWith_of_isSequence text (Nat.succ_ne_zero rest.length) results allowShort] at made
    exact ⟨c, rest, rfl, (Except.ok.inj made).symm⟩

end Parser

namespace Effects

variable {b : Effects} {p : Parser} {expected v w x y : Value} {ds : List Derivation}

/-! ## A continuation that is evaluated in any case -/

/-- The derivation that is continued where there is none. -/
def orDefault (y : Value) (ds : List Derivation) : List Derivation :=
  if ds = [] then [⟨.text [], y⟩] else ds

/-- Where there is no derivation, the default one is continued in its place. -/
theorem process_bind_always (ev : Evaluator) (next : Value) :
    ev.process (p.bind next (.bool true)) y = (do
      let found ← ev.parse p y
      ev.continueAll next (orDefault y found)) := by
  have default : ev.continueAll next [⟨.text [], y⟩] = (do
      let q ← ev.continuation next (.text []) y
      ev.parse q y) := by
    simp only [Evaluator.continueAll, pure_bind, List.append_nil, bind_pure]
  refine bind_congr fun found => ?_
  cases found with
  | nil =>
    rw [orDefault, if_pos rfl, default]
    rfl
  | cons d ds => rfl

/-- A continuation that is evaluated even if there is no derivation. -/
theorem yields_bind_always {ι : Type} {next : Value} {found : ι → Derivation} {is : List ι}
    {after : ι → List Derivation} (first : b.Yields p y (.ok ds))
    (continued : orDefault y ds = is.map found)
    (continues : ∀ i ∈ is, b.Settles (fun ev =>
      ev.continuation next (found i).value (found i).remainder >>= (ev.parse · (found i).remainder))
      (.ok (after i))) :
    b.Yields (p.bind next (.bool true)) y (.ok (is.flatMap after)) := by
  have all := settles_continueAll found is continues
  rw [Except.mapM_ok, ← continued] at all
  have whole : b.Settles (fun ev => ev.parse p y >>= fun found =>
      ev.continueAll next (orDefault y found)) (.ok (is.flatMap after)) := first.settles.bind all
  refine .of_process (.of_parts (Value.shownBy_bind p _ _) ?_) first.read rfl rfl
    (whole.congr fun n s _ => ?_)
  · exact List.forall_mem_singleton.mpr first.shown
  · rw [process_bind_always]

/-! ## Joining and comparing -/

/-- What is joined to the match of the first item: what the rest has matched, if anything. -/
def restValue (expected : Value) (path : List Derivation) : Value :=
  if path = [] then .text [] else spelledValue (expected.drop 1) path

/-- The match of an item of a text is that item. -/
def MatchesHead (expected v : Value) : Prop :=
  ∀ cs, expected = .text cs → ∃ c rest, cs = c :: rest ∧ v = .text [c]

theorem settles_joinSpelled (sequence : expected.IsSequence) {d : Derivation}
    (head : MatchesHead expected d.value) (path : List Derivation) :
    b.Settles (fun _ => Evaluator.joinSpelled expected d.value (restValue expected path))
      (.ok (spelledValue expected (d :: path))) := by
  cases expected with
  | text cs =>
    obtain ⟨c, rest, rfl, same⟩ := head cs rfl
    rw [same]
    cases path with
    | nil => exact Settles.lift (.ok _)
    | cons e path => exact Settles.lift (.ok _)
  | bytes _ | list _ | tuple _ =>
    cases path with
    | nil => exact Settles.lift (.ok _)
    | cons e path => exact Settles.lift (.ok _)
  | _ => exact sequence.elim

/-- A part of a text from its beginning on equals the text if it is as long. -/
theorem equates_take (b : Effects) {cs : List Char} {k : Nat} (fits : k ≤ cs.length) :
    b.Equates (.text (cs.take k)) (.text cs) (k == cs.length) := by
  have same : (cs.take k == cs) = (k == cs.length) := by
    rw [Bool.eq_iff_iff, beq_iff_eq, beq_iff_eq]
    constructor
    · intro whole
      have count := congrArg List.length whole
      rw [List.length_take] at count
      omega
    · rintro rfl
      exact List.take_length
  rw [← same]
  exact .text b _ _

/-- The list of the values that have been matched equals the list of the items if it is as long. -/
theorem equates_values {path : List Derivation} {ts : List Value}
    (complete : path.length = ts.length →
      List.Forall₂ (fun d t => b.Equates d.value t true) path ts) :
    b.Equates (.list (path.map (·.value))) (.list ts) (path.length == ts.length) := by
  by_cases whole : path.length = ts.length
  · rw [beq_iff_eq.mpr whole]
    exact .list (List.forall₂_map_left_iff.mpr (complete whole))
  · rw [beq_eq_false_iff_ne.mpr whole]
    exact .list_of_length_ne (by rwa [List.length_map])

/-- What has been matched is the whole sequence if so many items have been. -/
theorem settles_finishSpelled (sequence : expected.IsSequence) (short : Bool)
    {path : List Derivation} (fits : path.length ≤ expected.elements.length)
    (complete : path.length = expected.elements.length →
      List.Forall₂ (fun d t => b.Equates d.value t true) path expected.elements) :
    b.Settles (fun ev => ev.finishSpelled expected (.bool short) (spelledValue expected path))
      (.ok (if short || path.length == expected.elements.length then spelledValue expected path
        else .parser .zero)) := by
  cases short with
  | true => exact Settles.lift (.ok _)
  | false =>
    have partly : b.Settles (fun _ => Evaluator.truth (.bool false)) (.ok false) :=
      Settles.of_deep 0 fun _ _ => rfl
    cases expected with
    | text cs =>
      rw [show (Value.text cs).elements.length = cs.length from List.length_map _] at fits ⊢
      have compared := settles_equal (equates_take b fits)
      cases whole : path.length == cs.length with
      | true =>
        have all : spelledValue (.text cs) path = .text cs := by
          rw [spelledValue, beq_iff_eq.mp whole, List.take_length]
        rw [whole] at compared
        have finished : b.Settles (fun ev => ev.finishSpelled (.text cs) (.bool false)
            (spelledValue (.text cs) path)) (.ok (.text cs)) :=
          partly.bind (compared.bind (Settles.lift (.ok (Value.text cs))))
        simpa only [all, Bool.false_or, if_true] using finished
      | false =>
        rw [whole] at compared
        exact partly.bind (compared.bind (Settles.lift (.ok (Value.parser .zero))))
    | bytes _ | list _ | tuple _ =>
      have compared := settles_equal (equates_values complete)
      cases whole : path.length == (Value.elements _).length with
      | true =>
        rw [whole] at compared
        exact partly.bind (compared.bind (Settles.lift (.ok (Value.list _))))
      | false =>
        rw [whole] at compared
        exact partly.bind (compared.bind (Settles.lift (.ok (Value.parser .zero))))
    | _ => exact sequence.elim

/-- The step after the match of the first item goes on with the rest. -/
theorem gives_spellRest (sequence : expected.IsSequence) (allowShort v : Value) :
    b.Gives (.function (.spellRest p expected allowShort)) [v]
      (.ok (.parser ((p.speller (expected.drop 1) allowShort).bind
        (.function (.spellJoin expected allowShort v)) (.bool true)))) := by
  refine .of_step (fun _ => rfl) (Settles.of_deep 0 fun n s => ?_)
  have cut : expected.slice s.results (.int 1) .none .none = .ok (expected.drop 1) :=
    Value.slice_natCast sequence s.results 1
  have others := Parser.spell_of_isSequence (p := p) (expected.isSequence_drop sequence 1)
    s.results allowShort
  exact (Eval.lift_bind cut _ s).trans (Eval.lift_bind others _ s)

/-- The step that joins the match of the first item with what the rest has matched. -/
theorem gives_spellJoin (sequence : expected.IsSequence) (short : Bool) {d : Derivation}
    (head : MatchesHead expected d.value) {path : List Derivation}
    (fits : (d :: path).length ≤ expected.elements.length)
    (complete : (d :: path).length = expected.elements.length →
      List.Forall₂ (fun d t => b.Equates d.value t true) (d :: path) expected.elements) :
    b.Gives (.function (.spellJoin expected (.bool short) d.value)) [restValue expected path]
      (.ok (if short || (d :: path).length == expected.elements.length then
        spelledValue expected (d :: path) else .parser .zero)) :=
  .of_step (fun _ => rfl) ((settles_joinSpelled sequence head path).bind
    (settles_finishSpelled sequence short fits complete))

end Effects

/-! ## The ways to spell a sequence -/

section

variable {matching : Value → Value → List Derivation} {short : Bool} {ts : List Value} {y : Value}

/-- What may follow the match of a first item: a way to spell the others with a match at least, or
nothing where there is none. -/
def furtherSpellings (matching : Value → Value → List Derivation) (short : Bool) (ts : List Value)
    (y : Value) : List (List Derivation) :=
  if someSpellings matching short ts y = [] then [[]] else someSpellings matching short ts y

theorem eq_nil_or_isSpelling {path : List Derivation}
    (member : path ∈ furtherSpellings matching short ts y) :
    path = [] ∨ IsSpelling matching short ts y path := by
  unfold furtherSpellings at member
  split at member
  · exact .inl (List.mem_singleton.mp member)
  · exact .inr ((mem_someSpellings_iff ts y path).mp member).2

/-- What the rest of a sequence has matched, and the default where it has matched nothing. -/
theorem orDefault_spelled {expected : Value} (items : (expected.drop 1).elements = ts) :
    Effects.orDefault y (spelled matching short (expected.drop 1) y) =
      (furtherSpellings matching short ts y).map fun path =>
        ⟨Effects.restValue expected path, remainderAfter y (path.map Derivation.toStep)⟩ := by
  rw [Effects.orDefault, spelled, furtherSpellings, items]
  by_cases none : someSpellings matching short ts y = []
  · rw [none]
    rfl
  · rw [if_neg (by simpa using none), if_neg none]
    refine List.map_congr_left fun path member => ?_
    rw [Effects.restValue, if_neg ((mem_someSpellings_iff ts y path).mp member).1]

/-- Of what may follow, only the ways to spell the others are kept. -/
theorem furtherSpellings_flatMap {α : Type} (f : List Derivation → α) :
    (furtherSpellings matching short ts y).flatMap (fun path =>
        if short || path.length == ts.length then [f path] else []) =
      (spellings matching short ts y).map f := by
  rw [spellings_eq, furtherSpellings]
  by_cases none : someSpellings matching short ts y = []
  · rw [if_pos none, if_pos none]
    cases short <;> cases ts <;> rfl
  · rw [if_neg none, if_neg none, List.map_eq_flatMap]
    refine List.flatMap_congr fun path member => if_pos ?_
    have way := ((mem_someSpellings_iff ts y path).mp member).2
    cases short with
    | true => rfl
    | false => simp [way.length_eq]

end

namespace Effects

/-- Whether every value of a parser can be compared with every one of some items, which stand for
themselves; `same` is what the comparison comes to. -/
structure Compares (b : Effects) (inputs : Value → Prop) (derivations : Value → List Derivation)
    (same : Value → Value → Bool) (items : List Value) : Prop where
  plain : ∀ t ∈ items, t.IsPlain
  equates : ∀ t ∈ items, ∀ y, inputs y → ∀ d ∈ derivations y, b.Equates d.value t (same d.value t)

variable {b : Effects} {inputs : Value → Prop} {p : Parser} {s : Store}
  {derivations : Value → List Derivation} {same : Value → Value → Bool} {expected t y : Value}
  {ts : List Value} {short : Bool} {d : Derivation} {path : List Derivation}

theorem Compares.tail (compares : b.Compares inputs derivations same (t :: ts)) :
    b.Compares inputs derivations same ts :=
  ⟨fun u member => compares.plain u (List.mem_cons_of_mem _ member),
    fun u member => compares.equates u (List.mem_cons_of_mem _ member)⟩

/-- The match of an item equals it. -/
theorem Compares.equates_of_mem (compares : b.Compares inputs derivations same (t :: ts))
    (input : inputs y) (member : d ∈ matchesOf derivations same t y) :
    b.Equates d.value t true := by
  obtain ⟨inside, equal⟩ := List.mem_filter.mp member
  have compared := compares.equates t List.mem_cons_self y input d inside
  rwa [equal] at compared

/-- On a way to spell the whole, the values equal the items. -/
theorem Compares.forall₂ (compares : b.Compares inputs derivations same ts)
    (closed : ∀ v, inputs v → ∀ d ∈ derivations v, inputs d.remainder)
    (way : IsSpelling (matchesOf derivations same) short ts y path) (input : inputs y)
    (whole : path.length = ts.length) :
    List.Forall₂ (fun d t => b.Equates d.value t true) path ts := by
  induction way with
  | done => exact .nil
  | stop _ _ => cases whole
  | next member _ ih =>
    have left := closed _ input _ (List.mem_filter.mp member).1
    exact .cons (compares.equates_of_mem input member)
      (ih compares.tail left (Nat.succ.inj whole))

/-- The match of the first item of a text is a character. -/
theorem matchesHead_of_equates (start : b.start s) (items : expected.elements = t :: ts)
    {v : Value} (equates : b.Equates v t true) : MatchesHead expected v := by
  rintro cs rfl
  cases cs with
  | nil => cases items
  | cons c rest =>
    obtain rfl : .text [c] = t := (List.cons.inj items).1
    obtain ⟨inner, results, equal⟩ := equates.exists_equalWith start
    exact ⟨c, rest, rfl, Value.eq_text_of_equalWith equal⟩

/-- Comparing the values of a parser with an item keeps the matches of the item. -/
theorem Enumerates.yields_equals (enumerates : b.Enumerates inputs inputs p derivations)
    (values : b.Presents inputs derivations) (start : b.start s)
    (compares : b.Compares inputs derivations same (t :: ts)) (input : inputs y) :
    b.Yields (p.equals t) y (.ok (matchesOf derivations same t y)) := by
  refine yields_filter (enumerates.yields y input) (fun d member => ?_)
    (fun d member equal => ?_) fun d member => ⟨values y input d member, ?_⟩
  · have given := gives_equals (compares.equates t List.mem_cons_self y input d member)
    exact given.bind (Settles.of_deep 0 fun _ _ => rfl)
  · have kept : d ∈ matchesOf derivations same t y := List.mem_filter.mpr ⟨member, equal⟩
    obtain ⟨_, _, equal⟩ := (compares.equates_of_mem input kept).exists_equalWith start
    exact Value.isPlain_of_equalWith (compares.plain t List.mem_cons_self) equal
  · exact (enumerates.yields _ (enumerates.leaves y input d member)).read

/-- What a way to spell amounts to can be shown if its values can be. -/
theorem shows_spelledValue (shown : ∀ e ∈ path, b.Shows e.value) :
    b.Shows (spelledValue expected path) := by
  have listed : b.Shows (.list (path.map (·.value))) :=
    .of_parts (Value.shownBy_list _) (List.forall_mem_map.mpr shown)
  cases expected with
  | text cs => exact shows_text _
  | _ => exact listed

/-- The values on a further way can be shown, what it leaves is an input, and it matches all of the
items if there are as many derivations on it. -/
theorem Enumerates.further (enumerates : b.Enumerates inputs inputs p derivations)
    (values : b.Presents inputs derivations) (compares : b.Compares inputs derivations same ts)
    (input : inputs y)
    (way : path = [] ∨ IsSpelling (matchesOf derivations same) short ts y path) :
    (∀ e ∈ path, b.Shows e.value) ∧ inputs (remainderAfter y (path.map Derivation.toStep)) ∧
      path.length ≤ ts.length ∧ (path.length = ts.length →
        List.Forall₂ (fun d t => b.Equates d.value t true) path ts) := by
  rcases way with rfl | way
  · refine ⟨List.forall_mem_nil _, input, Nat.zero_le _, fun whole => ?_⟩
    cases List.eq_nil_of_length_eq_zero whole.symm
    exact .nil
  · obtain ⟨shown, left⟩ := way.forall_mem enumerates.leaves values input
    exact ⟨shown, left, way.length_le, compares.forall₂ enumerates.leaves way input⟩

/-- After the match of a first item: the ways to spell the others, each joined with it. -/
theorem Enumerates.yields_spellJoin (enumerates : b.Enumerates inputs inputs p derivations)
    (values : b.Presents inputs derivations) (start : b.start s)
    (sequence : expected.IsSequence) (items : expected.elements = t :: ts)
    (compares : b.Compares inputs derivations same (t :: ts)) (first : b.Equates d.value t true)
    (shown : b.Shows d.value) (input : inputs y)
    (rest : b.Yields (p.speller (expected.drop 1) (.bool short)) y
      (.ok (spelled (matchesOf derivations same) short (expected.drop 1) y))) :
    b.Yields ((p.speller (expected.drop 1) (.bool short)).bind
        (.function (.spellJoin expected (.bool short) d.value)) (.bool true)) y
      (.ok ((spellings (matchesOf derivations same) short ts y).map fun path =>
        ⟨spelledValue expected (d :: path), remainderAfter y (path.map Derivation.toStep)⟩)) := by
  have tail : (expected.drop 1).elements = ts := by rw [Value.elements_drop, items]; rfl
  rw [← furtherSpellings_flatMap]
  refine yields_bind_always rest (orDefault_spelled tail) fun path member => ?_
  obtain ⟨shown', left, fits, complete⟩ := enumerates.further values compares.tail input
    (eq_nil_or_isSpelling member)
  have count : ((d :: path).length == expected.elements.length) = (path.length == ts.length) := by
    simp [items]
  have given : b.Gives (.function (.spellJoin expected (.bool short) d.value))
      [restValue expected path] _ :=
    gives_spellJoin sequence short (matchesHead_of_equates start items first)
      (by rw [items]; exact Nat.succ_le_succ fits)
      fun whole => by rw [items] at whole ⊢; exact .cons first (complete (Nat.succ.inj whole))
  have called : b.Settles (fun ev => ev.continuation _ (restValue expected path)
      (remainderAfter y (path.map Derivation.toStep))) _ := settles_continuation rfl given
  rw [count] at called
  have read := (enumerates.yields _ left).read
  cases through : short || path.length == ts.length with
  | true =>
    rw [through] at called
    have plain : (spelledValue expected (d :: path)).IsPlain := by
      cases expected <;> trivial
    exact called.bind (yields_asParser plain
      (shows_spelledValue (List.forall_mem_cons.mpr ⟨shown, shown'⟩)) read).settles
  | false =>
    rw [through] at called
    exact called.bind (yields_zero read).settles

/-- The parser for a sequence yields the ways to spell it. -/
theorem Enumerates.yields_speller (enumerates : b.Enumerates inputs inputs p derivations)
    (values : b.Presents inputs derivations) (start : b.start s) (sequence : expected.IsSequence)
    (compares : b.Compares inputs derivations same expected.elements) (short : Bool)
    (input : inputs y) : b.Yields (p.speller expected (.bool short)) y
      (.ok (spelled (matchesOf derivations same) short expected y)) := by
  generalize items : expected.elements = ts at compares
  induction ts generalizing expected y with
  | nil =>
    rw [Parser.speller, items, spelled, items]
    exact yields_zero (enumerates.yields y input).read
  | cons t ts ih =>
    have first := enumerates.yields_equals values start compares input
    rw [← List.map_id (matchesOf derivations same t y)] at first
    rw [Parser.speller, items, spelled, items, someSpellings_cons, List.map_flatMap]
    simp only [List.map_map]
    refine yields_step_flatMap (k := fun d =>
      .parser ((p.speller (expected.drop 1) (.bool short)).bind
        (.function (.spellJoin expected (.bool short) d.value)) (.bool true))) rfl id first
      (fun d _ => gives_spellRest sequence _ _) fun d member => ?_
    have inside := (List.mem_filter.mp member).1
    have left := enumerates.leaves y input d inside
    have tail : (expected.drop 1).elements = ts := by rw [Value.elements_drop, items]; rfl
    have rest := ih (expected.isSequence_drop sequence 1) left tail compares.tail
    exact enumerates.yields_spellJoin values start sequence items compares
      (compares.equates_of_mem input member) (values y input d inside) left rest

/-! ## Items of a sequence -/

/-- Every part of a sequence can be shown if its items can be. -/
theorem shows_drop {x : Value} (sequence : x.IsSequence) (shown : ∀ e ∈ x.elements, b.Shows e)
    (k : Nat) : b.Shows (x.drop k) := by
  cases x with
  | text _ => exact shows_text _
  | bytes _ => exact .of_parts (Value.shownBy_bytes _) (List.forall_mem_nil _)
  | list vs =>
    exact .of_parts (Value.shownBy_list _) fun e member => shown e (List.mem_of_mem_drop member)
  | tuple vs =>
    exact .of_parts (Value.shownBy_tuple _) fun e member => shown e (List.mem_of_mem_drop member)
  | _ => exact sequence.elim

variable {x : Value}

/-- One item after the other is taken from a sequence. -/
theorem enumerates_firstItem (sequence : x.IsSequence) (shown : ∀ e ∈ x.elements, b.Shows e) :
    b.Enumerates (fun v => ∃ k, v = x.drop k) (fun v => ∃ k, v = x.drop k) .item
      Value.firstItem where
  yields := by
    rintro _ ⟨k, rfl⟩
    refine .of_process (.of_parts Value.shownBy_item (List.forall_mem_nil _))
      (shows_drop sequence shown k) rfl rfl (Settles.of_deep 0 fun n s => ?_)
    have split := Value.uncons?_of_isSequence (x.isSequence_drop sequence k) s.results
    refine (Eval.lift_bind split _ s).trans ?_
    rw [Value.firstItem]
    cases (x.drop k).elements <;> rfl
  leaves := by
    rintro _ ⟨k, rfl⟩ d member
    have only : d.remainder = (x.drop k).drop 1 := by
      rw [Value.firstItem] at member
      cases items : (x.drop k).elements with
      | nil => simp [items] at member
      | cons e es =>
        rw [items] at member
        rw [List.mem_singleton.mp member]
    exact ⟨k + 1, by rw [only, Value.drop_drop]⟩

theorem mem_elements_of_mem_firstItem {k : Nat} (member : d ∈ (x.drop k).firstItem) :
    d.value ∈ x.elements := by
  rw [Value.firstItem, Value.elements_drop] at member
  cases items : x.elements.drop k with
  | nil => simp [items] at member
  | cons e es =>
    rw [items] at member
    rw [List.mem_singleton.mp member]
    exact List.mem_of_mem_drop (items ▸ List.mem_cons_self)

/-- The parser of items yields as much of a sequence as agrees with what is expected. -/
theorem yields_speller_item (start : b.start s) (sequence : expected.IsSequence)
    (sequence' : x.IsSequence) (shown : ∀ e ∈ x.elements, b.Shows e)
    (plain : ∀ t ∈ expected.elements, t.IsPlain)
    (equates : ∀ e ∈ x.elements, ∀ t ∈ expected.elements, b.Equates e t (same e t)) (short : Bool) :
    b.Yields (Parser.item.speller expected (.bool short)) x
      (.ok (spelled (matchesOf Value.firstItem same) short expected x)) := by
  refine (enumerates_firstItem sequence' shown).yields_speller ?_ start sequence ⟨plain, ?_⟩ short
    ⟨0, x.drop_zero.symm⟩
  · rintro _ ⟨k, rfl⟩ d member
    exact shown _ (mem_elements_of_mem_firstItem member)
  · rintro t member _ ⟨k, rfl⟩ d inside
    exact equates _ (mem_elements_of_mem_firstItem inside) t member

/-- With values that hold no others, all values compare. -/
theorem compares_of_isScalar (b : Effects) (inputs : Value → Prop)
    (derivations : Value → List Derivation) {items : List Value}
    (scalar : ∀ t ∈ items, t.IsScalar ∧ t.IsPlain) :
    b.Compares inputs derivations (Value.equalsScalar b.runtime) items :=
  ⟨fun t member => (scalar t member).2,
    fun t member _ _ d _ => .of_isScalar b (scalar t member).1 d.value⟩

/-- Matching a sequence item by item has the ways to spell it for derivations: successive
derivations of the parser whose values equal the items, sorted as the derivations of the parser are.
A way comes to the end of the sequence, or, if a part is enough, matches one item at least and stops
where no derivation equals the next one. All that holds as long as the values can be compared with
the items. By the items of another sequence as much is matched as agrees, which is the whole if the
other sequence begins with it. -/
theorem startsWith_yields_spellings (enumerates : b.Enumerates inputs inputs p derivations)
    (values : b.Presents inputs derivations) (start : b.start s) (sequence : expected.IsSequence)
    (some_ : expected.width ≠ 0)
    (compares : b.Compares inputs derivations same expected.elements) (short : Bool)
    (input : inputs x) :
    (∃ q, (∀ results, p.startsWith results expected (.bool short) = .ok q) ∧
      b.Yields q x (.ok ((someSpellings (matchesOf derivations same) short expected.elements x).map
        fun path =>
          ⟨spelledValue expected path, remainderAfter x (path.map Derivation.toStep)⟩))) ∧
    (∀ path, path ∈ someSpellings (matchesOf derivations same) short expected.elements x ↔
      path ≠ [] ∧ IsSpelling (matchesOf derivations same) short expected.elements x path) ∧
    (∀ path ∈ someSpellings (matchesOf derivations same) short expected.elements x,
      path.length ≤ expected.width ∧ (short = false → path.length = expected.width)) ∧
    (∀ lt : Derivation → Derivation → Prop, (∀ y, inputs y → (derivations y).Pairwise lt) →
      (someSpellings (matchesOf derivations same) short expected.elements x).Pairwise
        (List.Lex lt)) ∧
    ∀ y : Value, y.IsSequence → (∀ e ∈ y.elements, b.Shows e) →
      (∀ e ∈ y.elements, ∀ t ∈ expected.elements, b.Equates e t (same e t)) →
      ∃ q k, (∀ results, Parser.item.startsWith results expected (.bool short) = .ok q) ∧
        (∀ j, j ≤ k ↔ ∀ i < j, ∃ e t, y.elements[i]? = some e ∧ expected.elements[i]? = some t ∧
          same e t = true) ∧
        b.Yields q y (.ok (if k ≠ 0 ∧ (short = true ∨ k = expected.width) then
          [⟨spelledPrefix expected y k, y.drop k⟩] else [])) := by
  refine ⟨⟨p.speller expected (.bool short), fun results => ?_, ?_⟩, mem_someSpellings_iff _ _,
    fun path member => ?_, fun lt sorted => ?_, fun y sequence' shown equates =>
      ⟨Parser.item.speller expected (.bool short), agreeing same y.elements expected.elements,
        fun results => ?_, le_agreeing_iff, ?_⟩⟩
  · exact Parser.startsWith_of_isSequence sequence some_ results _
  · exact enumerates.yields_speller values start sequence compares short input
  · have way := ((mem_someSpellings_iff _ x path).mp member).2
    rw [← Value.length_elements]
    refine ⟨way.length_le, ?_⟩
    rintro rfl
    exact way.length_eq
  · have leaves : ∀ t y, inputs y → ∀ d ∈ matchesOf derivations same t y, inputs d.remainder :=
      fun t y input d member => enumerates.leaves y input d (List.mem_filter.mp member).1
    have ordered : ∀ t y, inputs y → (matchesOf derivations same t y).Pairwise lt :=
      fun t y input => (sorted y input).filter _
    exact (spellings_pairwise_lex leaves ordered _ input).filter _
  · exact Parser.startsWith_of_isSequence sequence some_ results _
  · have whole := yields_speller_item start sequence sequence' shown compares.plain equates short
    rw [spelled_firstItem, Value.length_elements] at whole
    exact whole

end Effects

/-- By one character or two, a text is spelled as one character and then the other two. The items of
a list agree with what is expected up to the last one. -/
theorem startsWith_yields_split :
    (∃ q, (∀ results, (Parser.ofShape (.splits [.int 1, .int 2])).startsWith results
        (.list [.text ['a'], .text ['b', 'c']]) (.bool false) = .ok q) ∧
      (Effects.messages Store.initial).Yields q (.text ['a', 'b', 'c'])
        (.ok [⟨.list [.text ['a'], .text ['b', 'c']], .text []⟩])) ∧
    ∃ q, (∀ results, Parser.item.startsWith results
        (.list [.text ['a'], .text ['b', 'c']]) (.bool false) = .ok q) ∧
      (Effects.messages Store.initial).Yields q
        (.list [.text ['a'], .text ['b', 'c'], .text ['d']])
        (.ok [⟨.list [.text ['a'], .text ['b', 'c']], .list [.text ['d']]⟩]) := by
  have splits : (Effects.messages Store.initial).Enumerates Parser.endsOfAbc Parser.endsOfAbc
    (.ofShape (.splits [.int 1, .int 2])) Parser.oneOrTwo := Effects.enumerates_oneOrTwo rfl
  have scalar : ∀ t ∈ [Value.text ['a'], .text ['b', 'c']], t.IsScalar ∧ t.IsPlain :=
    List.forall_mem_cons.mpr ⟨⟨trivial, trivial⟩, List.forall_mem_singleton.mpr ⟨trivial, trivial⟩⟩
  have sequence : (Value.list [.text ['a'], .text ['b', 'c']]).IsSequence := trivial
  have input : Parser.endsOfAbc (.text ['a', 'b', 'c']) := .inl rfl
  obtain ⟨spelling, -, -, -, items⟩ := Effects.startsWith_yields_spellings splits
    (fun _ _ _ _ => .of_quiet rfl) (Store.Logs.refl _) sequence (by decide)
    (Effects.compares_of_isScalar _ _ _ scalar) false input
  obtain ⟨q, k, made, agree, yields⟩ := items (.list [.text ['a'], .text ['b', 'c'], .text ['d']])
    trivial (fun _ _ => .of_quiet rfl) fun e _ t member => .of_isScalar _ (scalar t member).1 e
  have two : 2 ≤ k := (agree 2).mpr fun i below => by
    obtain rfl | rfl : i = 0 ∨ i = 1 := by omega
    · exact ⟨_, _, rfl, rfl, rfl⟩
    · exact ⟨_, _, rfl, rfl, rfl⟩
  have most : ¬ 3 ≤ k := fun more => by
    obtain ⟨_, _, _, beyond, _⟩ := (agree 3).mp more 2 (by decide)
    cases beyond
  obtain rfl : k = 2 := by omega
  exact ⟨spelling, q, made, yields⟩

/-- A store with one list of derivations, which has a single one. -/
def Store.oneResult : Store :=
  { Store.initial with results := { lists := #[[⟨.text ['a'], .text ['b']⟩]] } }

/-- A list of derivations as the value of an item cannot be compared with a pair of a text and a
number, which are no derivations. So it is an error to match a list of such pairs on it, and not
just a failure. -/
theorem startsWith_raises : ∃ q,
    (∀ results, Parser.item.startsWith results (.list [.tuple [.text ['N'], .int 1]])
      (.bool false) = .ok q) ∧
    (Effects.messages Store.oneResult).Yields q (.list [.result 0]) (.error .wrongKind) ∧
    ¬ (Effects.messages Store.oneResult).Yields q (.list [.result 0]) (.ok []) := by
  have sequence : (Value.list [.tuple [.text ['N'], .int 1]]).IsSequence := trivial
  have first : (Effects.messages Store.oneResult).Yields .item (.list [.result 0])
      (.ok [⟨.result 0, .list []⟩]) :=
    (Effects.enumerates_firstItem (x := .list [.result 0]) trivial
      fun _ _ => .of_quiet rfl).yields _ ⟨0, rfl⟩
  have compared : (Effects.messages Store.oneResult).Decides
      (.function (.equals (.tuple [.text ['N'], .int 1]))) (.result 0) (.error .wrongKind) := by
    refine ⟨3, fun n deep s logs => ⟨s, logs, ?_⟩⟩
    obtain rfl := logs.quiet rfl
    obtain ⟨n, rfl⟩ : ∃ k, n = k + 3 := ⟨n - 3, by omega⟩
    rfl
  have tested : (Effects.messages Store.oneResult).Yields
      (Parser.item.equals (.tuple [.text ['N'], .int 1])) (.list [.result 0])
      (continued (fun _ => contribution (.error .wrongKind) (.ok [])) [⟨.result 0, .list []⟩]) :=
    Effects.yields_satisfy first (List.forall_mem_singleton.mpr compared)
      (fun _ _ => .of_quiet rfl) (List.forall_mem_singleton.mpr nofun)
  have raised : (Effects.messages Store.oneResult).Yields
      (Parser.item.speller (.list [.tuple [.text ['N'], .int 1]]) (.bool false))
      (.list [.result 0]) (.error .wrongKind) := (Effects.produces_bind_error tested).yields
  refine ⟨_, fun results => Parser.startsWith_of_isSequence sequence (by decide) results _, raised,
    fun failed => ?_⟩
  cases raised.settles.unique (Store.Logs.refl _) failed.settles

end GrammarKit
