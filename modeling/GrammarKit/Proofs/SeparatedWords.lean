import GrammarKit.Proofs.Branching.Separated
import GrammarKit.Proofs.Characters

/-! # Words divided by a character

A list of words over a set of characters, divided by a character that is not in the set. What is
printed from words is read back as these words, and whatever begins with a word is read as words
that can be printed again. A separator that no word follows is left.
-/

namespace GrammarKit

/-- Whether a text begins with a character of a set. -/
def Opens (members : List Char) (cs : List Char) : Prop := ∃ d ds, cs = d :: ds ∧ d ∈ members

/-- Whether these are words over a set of characters: one or more, none of them empty. -/
structure AreWords (members : List Char) (ws : List (List Char)) : Prop where
  some_ : ws ≠ []
  nonempty : ∀ w ∈ ws, w ≠ []
  among : ∀ w ∈ ws, ∀ d ∈ w, d ∈ members

/-- Whether words that are divided by `c` end before a text: their last one would not be longer,
and there would be no further one. -/
structure EndsWords (members : List Char) (c : Char) (rest : List Char) : Prop where
  word : ¬ Opens members rest
  further : ¬ ∃ ds, rest = c :: ds ∧ Opens members ds

variable {members : List Char} {c : Char} {w cs rest : List Char} {ws : List (List Char)}

theorem opens_cons {d : Char} {ds : List Char} : Opens members (d :: ds) ↔ d ∈ members := by
  constructor
  · rintro ⟨_, _, same, member⟩
    rwa [(List.cons.inj same).1]
  · exact fun member => ⟨d, ds, rfl, member⟩

theorem takeWhile_of_not_opens (ends : ¬ Opens members rest) :
    rest.takeWhile members.contains = [] := by
  cases rest with
  | nil => rfl
  | cons d ds =>
    refine List.takeWhile_cons_of_neg fun member => ends (opens_cons.mpr ?_)
    exact List.contains_iff_mem.mp member

theorem not_opens_dropWhile (members cs : List Char) :
    ¬ Opens members (cs.dropWhile members.contains) := by
  rintro ⟨d, ds, same, member⟩
  have first := List.head?_dropWhile_not members.contains cs
  rw [same] at first
  exact Bool.false_ne_true (first.symm.trans (List.contains_iff_mem.mpr member))

/-- A word is what comes before a text that would not make it longer. -/
theorem word_append (among : ∀ d ∈ w, d ∈ members) (ends : ¬ Opens members rest) :
    (w ++ rest).takeWhile members.contains = w ∧ (w ++ rest).dropWhile members.contains = rest := by
  have all : ∀ d ∈ w, members.contains d = true :=
    fun d member => List.contains_iff_mem.mpr (among d member)
  have none := takeWhile_of_not_opens ends
  have left : rest.dropWhile members.contains = rest := by
    have whole := List.takeWhile_append_dropWhile (p := members.contains) (l := rest)
    rwa [none, List.nil_append] at whole
  rw [List.takeWhile_append_of_pos all, List.dropWhile_append_of_pos all, none, List.append_nil]
  exact ⟨rfl, left⟩

/-! ## Printed words -/

/-- Words that come after others are printed with a separator before each. -/
def furtherWords (c : Char) (ws : List (List Char)) : List Char := ws.flatMap (c :: ·)

theorem intercalate_cons (c : Char) (w : List Char) (ws : List (List Char)) :
    [c].intercalate (w :: ws) = w ++ furtherWords c ws := by
  induction ws generalizing w with
  | nil => simp [furtherWords]
  | cons w' ws ih =>
    rw [List.intercalate_cons_cons, ih, furtherWords, furtherWords, List.flatMap_cons]
    simp

/-- No word goes on where further words or the end are. -/
theorem not_opens_furtherWords (separates : c ∉ members) (ends : ¬ Opens members rest)
    (ws : List (List Char)) : ¬ Opens members (furtherWords c ws ++ rest) := by
  cases ws with
  | nil => exact ends
  | cons w ws => exact fun opens => separates (opens_cons.mp opens)

/-- The first of the words, and the others. -/
theorem AreWords.exists_cons (words : AreWords members ws) :
    ∃ w others, ws = w :: others ∧ w ≠ [] ∧ (∀ d ∈ w, d ∈ members) ∧
      ∀ v ∈ others, v ≠ [] ∧ ∀ d ∈ v, d ∈ members := by
  obtain ⟨w, others, rfl⟩ := List.exists_cons_of_ne_nil words.some_
  have first := List.mem_cons_self (a := w) (l := others)
  refine ⟨w, others, rfl, words.nonempty w first, words.among w first, fun v member => ?_⟩
  have later : v ∈ w :: others := List.mem_cons_of_mem w member
  exact ⟨words.nonempty v later, words.among v later⟩

/-- One more word. -/
theorem AreWords.cons (words : AreWords members ws) (some_ : w ≠ [])
    (among : ∀ d ∈ w, d ∈ members) : AreWords members (w :: ws) where
  some_ := List.cons_ne_nil _ _
  nonempty := List.forall_mem_cons.mpr ⟨some_, words.nonempty⟩
  among := List.forall_mem_cons.mpr ⟨among, words.among⟩

theorem areWords_singleton (some_ : w ≠ []) (among : ∀ d ∈ w, d ∈ members) :
    AreWords members [w] where
  some_ := List.cons_ne_nil _ _
  nonempty := List.forall_mem_singleton.mpr some_
  among := List.forall_mem_singleton.mpr among

/-- Every text that a word begins is printed words, and what can come after words. -/
theorem exists_words (members : List Char) (c : Char) (cs : List Char) (opens : Opens members cs) :
    ∃ ws rest, AreWords members ws ∧ EndsWords members c rest ∧
      [c].intercalate ws ++ rest = cs := by
  induction count : cs.length using Nat.strongRecOn generalizing cs with
  | ind n ih =>
    obtain ⟨d, ds, rfl, member⟩ := opens
    -- the first word is the longest run; what matters is what is after it
    have taken := List.takeWhile_cons_of_pos (l := ds) (List.contains_iff_mem.mpr member)
    have some_ : (d :: ds).takeWhile members.contains ≠ [] := taken ▸ List.cons_ne_nil _ _
    have among : ∀ e ∈ (d :: ds).takeWhile members.contains, e ∈ members := fun e inside =>
      List.contains_iff_mem.mp (List.all_eq_true.mp List.all_takeWhile e inside)
    have whole := List.takeWhile_append_dropWhile (p := members.contains) (l := d :: ds)
    have ends := not_opens_dropWhile members (d :: ds)
    generalize (d :: ds).takeWhile members.contains = w at some_ among whole
    generalize (d :: ds).dropWhile members.contains = after at ends whole
    by_cases further : ∃ more, after = c :: more ∧ Opens members more
    · obtain ⟨more, rfl, opens⟩ := further
      have shorter : more.length < n := by
        have lengths := congrArg List.length whole
        rw [List.length_append, List.length_cons] at lengths
        omega
      obtain ⟨ws, rest, words, last, printed⟩ := ih more.length shorter more opens rfl
      refine ⟨w :: ws, rest, words.cons some_ among, last, ?_⟩
      obtain ⟨w', others, rfl, -⟩ := words.exists_cons
      rw [List.intercalate_cons_cons, List.append_assoc, List.append_assoc, printed]
      exact whole
    · refine ⟨[w], after, areWords_singleton some_ among, ⟨ends, further⟩, ?_⟩
      rwa [List.intercalate_singleton]

/-! ## Parsed words -/

namespace Parser

/-- Words over a set of characters, divided by `c`. -/
def words (members : List Char) (c : Char) : Parser :=
  ((oneOf (Value.ofChars members) true).many .text).sepBy (charText [c]) (.text [])

/-- A separator and the word after it. -/
def furtherWord (members : List Char) (c : Char) : Parser :=
  (charText [c]).bind (.parser ((oneOf (Value.ofChars members) true).many .text)) (.bool false)

end Parser

namespace Effects

open GrammarKit.Parser

variable {b : Effects}

/-- A word is read to its end. -/
theorem yields_word (some_ : w ≠ []) (among : ∀ d ∈ w, d ∈ members)
    (ends : ¬ Opens members rest) :
    b.Yields ((oneOf (Value.ofChars members) true).many .text) (.text (w ++ rest))
      (.ok [⟨.text w, .text rest⟩]) := by
  have many := ((matches_members (b := b) members).1.produces_many (w ++ rest)).yields
  obtain ⟨taken, dropped⟩ := word_append among ends
  rw [taken, dropped] at many
  rwa [if_neg (by rwa [List.isEmpty_iff])] at many

theorem yields_no_word (ends : ¬ Opens members rest) :
    b.Yields ((oneOf (Value.ofChars members) true).many .text) (.text rest) (.ok []) := by
  have many := ((matches_members (b := b) members).1.produces_many rest).yields
  rw [takeWhile_of_not_opens ends] at many
  exact many

/-- After a separator there is what the parser of words finds there. -/
theorem yields_furtherWord {after : List Char} {ds : List Derivation}
    (word : b.Yields ((oneOf (Value.ofChars members) true).many .text) (.text after) (.ok ds)) :
    b.Yields (furtherWord members c) (.text (c :: after)) (.ok ds) := by
  have sign := (matches_charText (b := b) c).cons c after
  rw [if_pos (beq_self_eq_true c)] at sign
  have both : b.Yields (furtherWord members c) (.text (c :: after))
      (.ok ([(⟨.text [c], .text after⟩ : Derivation)].flatMap fun _ => ds)) :=
    yields_bind_flatMap id sign (List.forall_mem_singleton.mpr word)
  rwa [List.flatMap_singleton] at both

/-- Without a separator that a word follows there is no further word. -/
theorem yields_no_furtherWord (ends : EndsWords members c rest) :
    b.Yields (furtherWord members c) (.text rest) (.ok []) := by
  have sign := matches_charText (b := b) c
  have none {cs : List Char} (first : b.Yields (charText [c]) (.text cs) (.ok [])) :
      b.Yields (furtherWord members c) (.text cs) (.ok []) := (produces_bind_nil first).yields
  cases rest with
  | nil => exact none sign.nil
  | cons d ds =>
    by_cases same : d = c
    · subst same
      exact yields_furtherWord (yields_no_word fun opens => ends.further ⟨ds, rfl, opens⟩)
    · have first := sign.cons d ds
      rw [if_neg (by simpa using same)] at first
      exact none first

/-- Further words are repetitions, up to the text that ends them. -/
theorem runs_furtherWord (separates : c ∉ members) (ends : EndsWords members c rest)
    (all : ∀ w ∈ ws, w ≠ [] ∧ ∀ d ∈ w, d ∈ members) :
    b.Runs (furtherWord members c) (.text (furtherWords c ws ++ rest))
      (.ok (ws.map Value.text, .text rest)) := by
  induction ws with
  | nil => exact .stop (yields_no_furtherWord ends)
  | cons w ws ih =>
    obtain ⟨⟨some_, among⟩, others⟩ := List.forall_mem_cons.mp all
    have last := not_opens_furtherWords separates ends.word ws
    have here := yields_furtherWord (b := b) (c := c) (yields_word some_ among last)
    have printed : furtherWords c (w :: ws) ++ rest = c :: (w ++ (furtherWords c ws ++ rest)) := by
      simp [furtherWords]
    rw [printed]
    refine .next here trivial ?_ (ih others)
    change (furtherWords c ws ++ rest).length < (c :: (w ++ (furtherWords c ws ++ rest))).length
    simp only [List.length_cons, List.length_append]
    omega

/-- Words that end are read as they were printed. -/
theorem yields_words (separates : c ∉ members) (all : AreWords members ws)
    (ends : EndsWords members c rest) :
    b.Yields (words members c) (.text ([c].intercalate ws ++ rest))
      (.ok [⟨.list (ws.map Value.text), .text rest⟩]) := by
  obtain ⟨w, others, rfl, some_, among, further⟩ := all.exists_cons
  have first := yields_word (b := b) some_ among (not_opens_furtherWords separates ends.word others)
  have list : b.Shows (.list ((w :: others).map Value.text)) :=
    .of_parts (Value.shownBy_list _) (List.forall_mem_map.mpr fun cs _ => shows_text cs)
  have runs := runs_furtherWord (b := b) separates ends further
  have following := (runs.produces_manyOrNone .sequence trivial).yields
  have joined : b.Yields (((furtherWord members c).manyOrNone .missing .sequence).step
      (.listJoin (.text w))) (.text (furtherWords c others ++ rest))
        (.ok [⟨.list ((w :: others).map Value.text), .text rest⟩]) :=
    (produces_step rfl following (gives_listJoin (.text w) (others.map Value.text))
      (yields_asParser trivial list (shows_text rest))).yields
  have given : b.Gives (Value.function (.listRest (furtherWord members c))) [.text w]
      (.ok (.parser (((furtherWord members c).manyOrNone .missing .sequence).step
        (.listJoin (.text w))))) := gives_next fun _ => rfl
  have words := (produces_step rfl first given joined).yields
  have other : b.Yields (asParser (.text [])) (.text []) _ :=
    yields_asParser trivial (shows_text []) (shows_text [])
  rw [intercalate_cons, List.append_assoc]
  exact (produces_orElse_left words other.shown).yields

end Effects

/-- Lists of words make a round trip. Over a set of characters without the separator, words that are
printed before a text that ends them are the only derivation there; and every text that begins with
a word has exactly one derivation, with words from which, and from what is left, the text can be
printed again. -/
theorem words_round_trip (b : Effects) (separates : c ∉ members) :
    (∀ ws rest, AreWords members ws → EndsWords members c rest →
      b.Yields (Parser.words members c) (.text ([c].intercalate ws ++ rest))
        (.ok [⟨.list (ws.map Value.text), .text rest⟩])) ∧
    ∀ cs, Opens members cs → ∃ ws rest, AreWords members ws ∧ EndsWords members c rest ∧
      [c].intercalate ws ++ rest = cs ∧
      b.Yields (Parser.words members c) (.text cs)
        (.ok [⟨.list (ws.map Value.text), .text rest⟩]) := by
  refine ⟨fun ws rest words ends => Effects.yields_words separates words ends, fun cs opens => ?_⟩
  obtain ⟨ws, rest, words, ends, rfl⟩ := exists_words members c cs opens
  exact ⟨ws, rest, words, ends, rfl, Effects.yields_words separates words ends⟩

/-- Two words, and a separator after the last one that is left. -/
theorem words_round_trip_trailing_separator :
    ',' ∉ ['a', 'b'] ∧ AreWords ['a', 'b'] [['a', 'b'], ['b']] ∧ EndsWords ['a', 'b'] ',' [','] ∧
    (Effects.messages Store.initial).Yields (Parser.words ['a', 'b'] ',')
      (.text ['a', 'b', ',', 'b', ','])
      (.ok [⟨.list [.text ['a', 'b'], .text ['b']], .text [',']⟩]) := by
  have separates : ',' ∉ ['a', 'b'] := by decide
  have words : AreWords ['a', 'b'] [['a', 'b'], ['b']] := ⟨by decide, by decide, by simp⟩
  have ends : EndsWords ['a', 'b'] ',' [','] := by
    refine ⟨fun opens => ?_, ?_⟩
    · exact absurd (opens_cons.mp opens) (by decide)
    · rintro ⟨_, same, _, _, rfl, -⟩
      cases same
  exact ⟨separates, words, ends,
    (words_round_trip (.messages Store.initial) separates).1 _ _ words ends⟩

end GrammarKit
