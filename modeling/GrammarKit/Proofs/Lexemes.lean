import GrammarKit.Proofs.Branching.StartsWith
import GrammarKit.Proofs.Characters

/-! # Longest runs of characters

A parser of single characters that is repeated takes as many of them as pass its test: the longest
run that the text begins with, in one derivation. Blanks and words are such runs. Only the condition
is asked about a character, and only of the characters of the text, so that is all that has to be
known of it.
-/

namespace GrammarKit

/-- Whether a text begins with a run of characters for which `φ` holds, but with no longer one;
`rest` is what is after the run. -/
structure IsLongestRun (φ : Char → Bool) (run rest cs : List Char) : Prop where
  divides : run ++ rest = cs
  holds : ∀ c ∈ run, φ c = true
  longest : ∀ other, other <+: cs → (∀ c ∈ other, φ c = true) → other.length ≤ run.length

variable {φ : Char → Bool} {cs : List Char}

theorem isLongestRun_takeWhile (φ : Char → Bool) (cs : List Char) :
    IsLongestRun φ (cs.takeWhile φ) (cs.dropWhile φ) cs where
  divides := List.takeWhile_append_dropWhile
  holds := fun c member => List.all_eq_true.mp List.all_takeWhile c member
  longest := by
    rintro other ⟨rest, rfl⟩ holds
    rw [List.takeWhile_append_of_pos holds, List.length_append]
    exact Nat.le_add_right ..

/-- There is only one longest run. -/
theorem IsLongestRun.unique {run run' rest rest' : List Char} (first : IsLongestRun φ run rest cs)
    (second : IsLongestRun φ run' rest' cs) : run = run' ∧ rest = rest' := by
  have begins : run <+: cs := ⟨rest, first.divides⟩
  have begins' : run' <+: cs := ⟨rest', second.divides⟩
  have shorter := second.longest run begins first.holds
  have count := Nat.le_antisymm shorter (first.longest run' begins' second.holds)
  exact List.append_inj (first.divides.trans second.divides.symm) count

/-! ## Repeated tests -/

/-- The first character of a text, if `φ` holds for it. -/
def leading (φ : Char → Bool) : Value → List Derivation
  | .text (c :: cs) => if φ c then [⟨.text [c], .text cs⟩] else []
  | _ => []

/-- The repetition goes along one path, through the characters of the longest run. -/
theorem exists_path_leading (φ : Char → Bool) (cs : List Char) :
    ∃ path, paths Value.width (steps (leading φ)) (.text cs) = [path] ∧
      path.map Prod.fst = Value.ofChars (cs.takeWhile φ) ∧
      remainderAfter (.text cs) path = .text (cs.dropWhile φ) := by
  induction cs with
  | nil => exact ⟨[], paths_of_eq_nil rfl, rfl, rfl⟩
  | cons c cs ih =>
    by_cases holds : φ c = true
    · obtain ⟨path, only, values, left⟩ := ih
      have next : steps (leading φ) (.text (c :: cs)) = [(.text [c], .text cs)] := by
        rw [steps, leading, if_pos holds]
        rfl
      have through : pathsThrough Value.width (steps (leading φ)) (.text (c :: cs))
          (.text [c], .text cs) = [(.text [c], .text cs) :: path] := by
        have further : ¬ (Value.text (c :: cs)).width ≤ (Value.text cs).width :=
          Nat.not_succ_le_self cs.length
        rw [pathsThrough, if_neg further, only]
        rfl
      refine ⟨(.text [c], .text cs) :: path, ?_, ?_, ?_⟩
      · rw [paths_of_ne_nil (by rw [next]; exact List.cons_ne_nil _ _), next,
          List.flatMap_singleton, through]
      · rw [List.takeWhile_cons_of_pos holds, List.map_cons, values]
        rfl
      · rw [List.dropWhile_cons_of_pos holds]
        exact left
    · have none : steps (leading φ) (.text (c :: cs)) = [] := by
        rw [steps, leading, if_neg holds]
        rfl
      rw [List.takeWhile_cons_of_neg holds, List.dropWhile_cons_of_neg holds]
      exact ⟨[], paths_of_eq_nil none, rfl, rfl⟩

theorem repeated_leading (φ : Char → Bool) (cs : List Char) :
    repeated Value.width (leading φ) (.strategy .text) (.text cs) =
      .ok [⟨.text (cs.takeWhile φ), .text (cs.dropWhile φ)⟩] := by
  obtain ⟨path, only, values, left⟩ := exists_path_leading φ cs
  rw [repeated, only, List.mapM_cons, endOf, List.nil_append, values, accumulateValues_ofChars,
    left]
  rfl

namespace Effects

variable {b : Effects} {condition : Value}

/-- What is left of a text. -/
def LeftOf (cs : List Char) (v : Value) : Prop := ∃ ds, v = .text ds ∧ ds <:+ cs

/-- A condition that is told for the characters of a text lets pass each of them or not. -/
theorem enumerates_satisfy (decides : ∀ c ∈ cs, b.Decides condition (.text [c]) (.ok (φ c))) :
    b.Enumerates (LeftOf cs) (LeftOf cs) (Parser.item.satisfy condition) (leading φ) where
  yields := by
    rintro _ ⟨ds, rfl, suffix⟩
    have first := (enumerates_firstItem (b := b) (x := .text ds) trivial fun e member => by
      obtain ⟨c, -, rfl⟩ := List.mem_map.mp member
      exact shows_text [c]).yields (.text ds) ⟨0, rfl⟩
    cases ds with
    | nil =>
      have none : b.Yields (Parser.item.satisfy condition) (.text [])
          (.ok (List.filter (fun _ => false) [])) := yields_filter first nofun nofun nofun
      exact none
    | cons c ds =>
      have kept : b.Yields (Parser.item.satisfy condition) (.text (c :: ds))
          (.ok ((Value.text (c :: ds)).firstItem.filter fun _ => φ c)) :=
        yields_filter first
          (List.forall_mem_singleton.mpr (decides c (suffix.mem List.mem_cons_self)))
          (List.forall_mem_singleton.mpr fun _ => trivial)
          (List.forall_mem_singleton.mpr ⟨shows_text [c], shows_text ds⟩)
      have same : (Value.text (c :: ds)).firstItem.filter (fun _ => φ c) =
          leading φ (.text (c :: ds)) := by
        cases holds : φ c with
        | true => simp [leading, holds, Value.firstItem, Value.elements, Value.ofChars, Value.drop]
        | false => simp [leading, holds]
      rwa [same] at kept
  leaves := by
    rintro _ ⟨ds, rfl, suffix⟩ d member
    cases ds with
    | nil => cases member
    | cons c ds =>
      rw [leading] at member
      split at member
      · rw [List.mem_singleton.mp member]
        exact ⟨ds, rfl, (List.suffix_cons c ds).trans suffix⟩
      · cases member

/-- Repeated tests, one or more of which have to pass. -/
theorem yields_many_leading (decides : ∀ c ∈ cs, b.Decides condition (.text [c]) (.ok (φ c))) :
    b.Yields ((Parser.item.satisfy condition).many .text) (.text cs)
      (.ok (if leading φ (.text cs) = [] then []
        else [⟨.text (cs.takeWhile φ), .text (cs.dropWhile φ)⟩])) := by
  have measured : b.Measures Value.width (LeftOf cs) := by
    rintro _ ⟨ds, rfl, -⟩ s -
    rfl
  have many := (enumerates_satisfy decides).yields_many measured (.strategy .text)
    ⟨cs, rfl, List.suffix_rfl⟩
  rwa [repeated_leading, ← apply_ite] at many

/-- The longest run of characters that pass a test, also if that is empty. -/
theorem settles_longest_run (decides : ∀ c ∈ cs, b.Decides condition (.text [c]) (.ok (φ c))) :
    b.Settles (fun ev =>
      ev.process ((Parser.item.satisfy condition).manyOrNone .missing .text) (.text cs))
      (.ok [⟨.text (cs.takeWhile φ), .text (cs.dropWhile φ)⟩]) := by
  have whole := settles_orElse_value (v := .text []) trivial (shows_text [])
    (yields_many_leading decides)
  cases cs with
  | nil => exact whole
  | cons c cs =>
    by_cases holds : φ c = true
    · have some_ : leading φ (.text (c :: cs)) ≠ [] := by
        rw [leading, if_pos holds]
        exact List.cons_ne_nil _ _
      rw [if_neg some_, if_neg (List.cons_ne_nil _ _)] at whole
      exact whole
    · have none : leading φ (.text (c :: cs)) = [] := by rw [leading, if_neg holds]
      rw [if_pos none, if_pos rfl] at whole
      rw [List.takeWhile_cons_of_neg holds, List.dropWhile_cons_of_neg holds]
      exact whole

theorem yields_longest_run (decides : ∀ c ∈ cs, b.Decides condition (.text [c]) (.ok (φ c))) :
    b.Yields ((Parser.item.satisfy condition).manyOrNone .missing .text) (.text cs)
      (.ok [⟨.text (cs.takeWhile φ), .text (cs.dropWhile φ)⟩]) :=
  .of_process (shows_orElse (yields_many_leading decides).shown
    (yields_asParser (v := .text []) trivial (shows_text []) (shows_text cs)).shown) (shows_text cs)
    rfl rfl (settles_longest_run decides)

end Effects

/-! ## Words -/

/-- What a word may begin with. -/
def Parser.beginsWord (c : Char) : Bool := c.isAlpha || c == '_'

/-- What a word may go on with. -/
def Parser.inWord (c : Char) : Bool := c.isAlphanum || c == '_'

theorem Parser.inWord_of_beginsWord {c : Char} (begins : beginsWord c = true) :
    inWord c = true := by
  rw [inWord, Char.isAlphanum, Bool.or_right_comm]
  exact Bool.or_eq_true_iff.mpr (.inl begins)

namespace Effects

open GrammarKit.Parser

variable {b : Effects} {p q : Parser} {ψ : Char → Bool}

/-- One character that one of two parsers matches. -/
theorem Matches.orElse (first : b.Matches p φ) (second : b.Matches q ψ) :
    b.Matches (p.orElse [.parser q]) fun c => φ c || ψ c where
  nil := (produces_orElse_right (v := .parser q) first.nil second.nil).yields
  cons c cs := by
    have here := first.cons c cs
    by_cases holds : φ c = true
    · rw [if_pos holds] at here
      rw [holds, Bool.true_or, if_pos rfl]
      exact (produces_orElse_left (v := .parser q) here second.nil.shown).yields
    · rw [if_neg holds] at here
      rw [Bool.eq_false_iff.mpr holds, Bool.false_or]
      exact (produces_orElse_right (v := .parser q) here (second.cons c cs)).yields

theorem matches_beginsWord : b.Matches (letter.orElse [.parser (charText ['_'])]) beginsWord := by
  have letters : b.Matches letter Alphabet.alphabetic.has :=
    (matches_members Alphabet.alphabetic.members).2 _
  have either := letters.orElse (matches_charText '_')
  rwa [show (fun c => Alphabet.alphabetic.has c || c == '_') = beginsWord from
    funext fun c => by rw [Alphabet.has_alphabetic, beginsWord]] at either

theorem matches_inWord :
    b.Matches (oneOf (.text ['_'] :: Alphabet.alphanumeric.values) true) inWord := by
  have one := (matches_members (b := b) ('_' :: Alphabet.alphanumeric.members)).1
  have same : ('_' :: Alphabet.alphanumeric.members).contains = inWord := by
    funext c
    have others : Alphabet.alphanumeric.members.contains c = c.isAlphanum :=
      Alphabet.has_alphanumeric c
    rw [List.contains_cons, others, inWord, Bool.or_comm]
  rwa [same] at one

/-- The characters after the first one are put after it. -/
theorem yields_wordTail (head cs : List Char) : b.Yields (wordTail (.text head)) (.text cs)
    (.ok [⟨.text (head ++ cs.takeWhile inWord), .text (cs.dropWhile inWord)⟩]) := by
  have tail := (matches_inWord.produces_manyOrNone (b := b) cs).yields
  have joined : b.Gives (Value.function (.wordJoin (.text head))) [.text (cs.takeWhile inWord)]
      (.ok (.text (head ++ cs.takeWhile inWord))) :=
    .of_step (fun _ => rfl) (Settles.lift (.ok (Value.text (head ++ cs.takeWhile inWord))))
  exact (produces_step rfl tail joined
    (yields_asParser (v := .text _) trivial (shows_text _) (shows_text _))).yields

theorem yields_identifier (cs : List Char) : b.Yields identifier (.text cs)
    (.ok (if cs.head?.any beginsWord then
      [⟨.text (cs.takeWhile inWord), .text (cs.dropWhile inWord)⟩] else [])) := by
  cases cs with
  | nil => exact (produces_step_nil matches_beginsWord.nil).named rfl _
  | cons c cs =>
    have here := matches_beginsWord (b := b).cons c cs
    rw [List.head?_cons, Option.any_some]
    by_cases begins : beginsWord c = true
    · have within := inWord_of_beginsWord begins
      have goes : b.Gives (Value.function .wordRest) [.text [c]]
          (.ok (.parser (wordTail (.text [c])))) := gives_next fun _ => rfl
      rw [if_pos begins] at here ⊢
      rw [List.takeWhile_cons_of_pos within, List.dropWhile_cons_of_pos within]
      exact (produces_step rfl here goes (yields_wordTail [c] cs)).named rfl _
    · rw [if_neg begins] at here ⊢
      exact (produces_step_nil here).named rfl _

end Effects

/-- Repeated tests take as much as passes them. If a condition without effects can be asked about
each character of a text, there is exactly one derivation, with the longest run of characters for
which the condition holds; so blanks are skipped as far as they go, and a word, where one begins,
is read to its end. -/
theorem lexemes_are_longest_runs (b : Effects) (cs : List Char) :
    (∀ (condition : Value) (φ : Char → Bool),
      (∀ c ∈ cs, b.Decides condition (.text [c]) (.ok (φ c))) →
        ∃ run rest, IsLongestRun φ run rest cs ∧
          b.Yields ((Parser.item.satisfy condition).manyOrNone .missing .text) (.text cs)
            (.ok [⟨.text run, .text rest⟩])) ∧
    (∃ run rest, IsLongestRun Alphabet.whitespace.has run rest cs ∧
      b.Yields Parser.whitespace (.text cs) (.ok [⟨.text run, .text rest⟩])) ∧
    ((∃ c rest, cs = c :: rest ∧ (c.isAlpha = true ∨ c = '_')) →
      ∃ run rest, IsLongestRun (fun c => c.isAlphanum || c == '_') run rest cs ∧
        b.Yields Parser.identifier (.text cs) (.ok [⟨.text run, .text rest⟩])) ∧
    ((¬ ∃ c rest, cs = c :: rest ∧ (c.isAlpha = true ∨ c = '_')) →
      b.Yields Parser.identifier (.text cs) (.ok [])) := by
  have word := Effects.yields_identifier (b := b) cs
  have begins : cs.head?.any Parser.beginsWord = true ↔
      ∃ c rest, cs = c :: rest ∧ (c.isAlpha = true ∨ c = '_') := by
    cases cs <;> simp [Parser.beginsWord]
  refine ⟨fun condition φ decides => ?_, ?_, fun starts => ?_, fun other => ?_⟩
  · exact ⟨_, _, isLongestRun_takeWhile φ cs, Effects.yields_longest_run decides⟩
  · exact ⟨_, _, isLongestRun_takeWhile _ cs, Effects.yields_whitespace cs⟩
  · rw [if_pos (begins.mpr starts)] at word
    exact ⟨_, _, isLongestRun_takeWhile _ cs, word⟩
  · rwa [if_neg (mt begins.mp other)] at word

/-- The condition to be a letter of `ab`, as it is written. -/
def Callback.isAOrB : Callback :=
  .closure [⟨"c", .standard, none⟩]
    (.apply (.operator .contains) [.variable "c", .literal (.text ['a', 'b'])]) []

/-- A run of two letters and a word of three. -/
theorem lexemes_are_longest_runs_abc :
    let b := Effects.messages Store.initial
    (∀ c ∈ ['a', 'b', 'c'],
      b.Decides (.function .isAOrB) (.text [c]) (.ok (c == 'a' || c == 'b'))) ∧
    b.Yields ((Parser.item.satisfy (.function .isAOrB)).manyOrNone .missing .text)
      (.text ['a', 'b', 'c']) (.ok [⟨.text ['a', 'b'], .text ['c']⟩]) ∧
    b.Yields Parser.identifier (.text ['a', 'b', 'c'])
      (.ok [⟨.text ['a', 'b', 'c'], .text []⟩]) := by
  intro b
  have decides : ∀ c ∈ ['a', 'b', 'c'],
      b.Decides (.function .isAOrB) (.text [c]) (.ok (c == 'a' || c == 'b')) := by
    simp only [List.forall_mem_cons]
    exact ⟨.of_deep 5 fun _ _ => rfl, .of_deep 5 fun _ _ => rfl, .of_deep 5 fun _ _ => rfl, nofun⟩
  obtain ⟨runs, -, words, -⟩ := lexemes_are_longest_runs b ['a', 'b', 'c']
  obtain ⟨run, rest, longest, yields⟩ := runs _ _ decides
  obtain ⟨rfl, rfl⟩ := longest.unique (isLongestRun_takeWhile _ _)
  obtain ⟨word, left, longest', yields'⟩ := words ⟨'a', ['b', 'c'], rfl, .inl rfl⟩
  obtain ⟨rfl, rfl⟩ := longest'.unique (isLongestRun_takeWhile _ _)
  exact ⟨decides, yields, yields'⟩

end GrammarKit
