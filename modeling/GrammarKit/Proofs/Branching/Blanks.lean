import GrammarKit.Proofs.Branching.Sequencing
import GrammarKit.Proofs.Lexemes
import Mathlib.Data.List.DropRight

/-! # Tokens and trimming

A token skips the blanks after what is matched, and trimming skips those on both sides. Blanks are
skipped as far as they go, after each derivation of an ambiguous parser for itself; so where they
have been skipped none are left, and skipping them again changes nothing.
-/

namespace GrammarKit

/-- A text without the blanks at its beginning; anything else as it is. -/
def Value.skipBlanks : Value → Value
  | .text cs => .text (GrammarKit.skipBlanks cs)
  | v => v

/-- No blanks are left to be skipped a second time. -/
theorem skipBlanks_skipBlanks (cs : List Char) : skipBlanks (skipBlanks cs) = skipBlanks cs :=
  List.dropWhile_idempotent ..

theorem Value.skipBlanks_skipBlanks (v : Value) : v.skipBlanks.skipBlanks = v.skipBlanks := by
  cases v with
  | text cs => exact congrArg Value.text (GrammarKit.skipBlanks_skipBlanks cs)
  | _ => rfl

/-- A derivation after which blanks are skipped. -/
def Derivation.skipBlanks (d : Derivation) : Derivation := ⟨d.value, d.remainder.skipBlanks⟩

/-- What is yielded, without the blanks after it. -/
def withoutBlanks (r : Except Error (List Derivation)) : Except Error (List Derivation) :=
  r.map fun ds => ds.map Derivation.skipBlanks

theorem withoutBlanks_withoutBlanks (r : Except Error (List Derivation)) :
    withoutBlanks (withoutBlanks r) = withoutBlanks r := by
  have twice (d : Derivation) : d.skipBlanks.skipBlanks = d.skipBlanks := by
    rw [Derivation.skipBlanks, Derivation.skipBlanks, Value.skipBlanks_skipBlanks]
  cases r with
  | ok ds => simp [withoutBlanks, Except.map, twice]
  | error e => rfl

/-- A parser between blanks. -/
def Parser.trim (p : Parser) : Parser := p.between .whitespace .whitespace

namespace Effects

/-- Whether a derivation has a plain value, and leaves a text. -/
structure LeavesText (b : Effects) (d : Derivation) : Prop where
  plain : d.value.IsPlain
  shown : b.Shows d.value
  left : ∃ rest, d.remainder = .text rest

/-- Whether a parser comes to the end `r` on a text, where it leaves texts. -/
structure ReadsText (b : Effects) (p : Parser) (cs : List Char)
    (r : Except Error (List Derivation)) : Prop where
  yields : b.Yields p (.text cs) r
  leaves : ∀ ds, r = .ok ds → ∀ d ∈ ds, b.LeavesText d

variable {b : Effects} {p : Parser} {cs : List Char} {r : Except Error (List Derivation)}

/-- Blanks are skipped after a derivation that leaves a text. -/
theorem LeavesText.yields_skipped {d : Derivation} (leaves : b.LeavesText d) :
    b.Yields (Parser.whitespace.step (.constant d.value)) d.remainder (.ok [d.skipBlanks]) := by
  obtain ⟨rest, left⟩ := leaves.left
  have given (w : Value) : b.Gives (.function (.constant d.value)) [w] (.ok d.value) :=
    .of_step (fun _ => rfl) (Settles.lift (.ok d.value))
  rw [Derivation.skipBlanks, left]
  exact yields_bind_only rfl (yields_whitespace rest) (given _)
    (yields_asParser leaves.plain leaves.shown (shows_text (skipBlanks rest)))

theorem LeavesText.skipBlanks {d : Derivation} (leaves : b.LeavesText d) :
    b.LeavesText d.skipBlanks := by
  obtain ⟨rest, left⟩ := leaves.left
  exact ⟨leaves.plain, leaves.shown, GrammarKit.skipBlanks rest, congrArg Value.skipBlanks left⟩

namespace ReadsText

/-- What is yielded elsewhere leaves the same. -/
theorem elsewhere {q : Parser} {ds : List Char} (reads : b.ReadsText p cs r)
    (yields : b.Yields q (.text ds) r) : b.ReadsText q ds r :=
  ⟨yields, reads.leaves⟩

/-- A step after which blanks are skipped, with the value kept. -/
theorem step {f : Callback} (reads : b.ReadsText p cs r)
    (unary : (Value.function f).arity 2 = 1)
    (skips : ∀ v,
      b.Gives (.function f) [v] (.ok (.parser (Parser.whitespace.step (.constant v))))) :
    b.ReadsText (p.step f) cs (withoutBlanks r) := by
  cases r with
  | ok ds =>
    have each := reads.leaves ds rfl
    have found := reads.yields
    rw [← List.map_id ds] at found
    have whole := yields_step_flatMap unary id found (fun d _ => skips d.value)
      fun d member => (each d member).yields_skipped
    rw [← List.map_eq_flatMap] at whole
    refine ⟨whole, fun fs same d member => ?_⟩
    obtain rfl := Except.ok.inj same
    obtain ⟨e, inside, rfl⟩ := List.mem_map.mp member
    exact (each e inside).skipBlanks
  | error e => exact ⟨(produces_bind_error reads.yields).yields, nofun⟩

/-- A token is what is matched, without the blanks after it. -/
theorem token (reads : b.ReadsText p cs r) : b.ReadsText p.token cs (withoutBlanks r) :=
  reads.step rfl fun _ => gives_next fun _ => rfl

/-- Trimming skips the blanks before a token, too. -/
theorem trim (reads : b.ReadsText p (GrammarKit.skipBlanks cs) r) :
    b.ReadsText p.trim cs (withoutBlanks r) := by
  have inside : b.ReadsText (p.step (.close .whitespace)) (GrammarKit.skipBlanks cs)
      (withoutBlanks r) := reads.step rfl fun _ => gives_next fun _ => rfl
  exact inside.elsewhere (yields_bind_only rfl (yields_whitespace cs) (gives_next fun _ => rfl)
    inside.yields)

end ReadsText

/-- Blanks are skipped as far as they go, and once. A token yields what its parser does, without the
blanks that each remainder begins with; trimming yields what the token does after the blanks that
the text begins with. A token of a token is the token, and trimming twice, a token of what is
trimmed and trimming a token are all trimming. That is for every parser whose values stand for
themselves and which leaves texts, ambiguous or not, with whatever effects and errors it has. -/
theorem blanks_are_skipped_once (b : Effects) (p : Parser) (cs : List Char) :
    (∀ ds, ∃ run, IsLongestRun Alphabet.whitespace.has run (skipBlanks ds) ds) ∧
    (∀ r, b.ReadsText p cs r →
      b.Yields p.token (.text cs) (withoutBlanks r) ∧
      b.Yields p.token.token (.text cs) (withoutBlanks r)) ∧
    ∀ r, b.ReadsText p (skipBlanks cs) r →
      b.Yields p.token (.text (skipBlanks cs)) (withoutBlanks r) ∧
      b.Yields p.trim (.text cs) (withoutBlanks r) ∧
      b.Yields p.trim.trim (.text cs) (withoutBlanks r) ∧
      b.Yields p.trim.token (.text cs) (withoutBlanks r) ∧
      b.Yields p.token.trim (.text cs) (withoutBlanks r) := by
  refine ⟨fun ds => ⟨_, isLongestRun_takeWhile _ ds⟩, fun r reads => ?_, fun r reads => ?_⟩
  · have twice := reads.token.token.yields
    rw [withoutBlanks_withoutBlanks] at twice
    exact ⟨reads.token.yields, twice⟩
  · -- where the blanks have been skipped, trimming has none to skip
    have again : b.ReadsText p (skipBlanks (skipBlanks cs)) r := by
      rwa [skipBlanks_skipBlanks]
    have trimmed := again.trim.trim.yields
    have token := reads.trim.token.yields
    have trim := reads.token.trim.yields
    rw [withoutBlanks_withoutBlanks] at trimmed token trim
    exact ⟨reads.token.yields, reads.trim.yields, trimmed, token, trim⟩

end Effects

/-- One or two characters of a text, the first of which is a blank. -/
theorem blanks_are_skipped_once_oneOrTwo :
    let b := Effects.messages Store.initial
    let p := Parser.ofShape (.splits [.int 1, .int 2])
    let found : List Derivation :=
      [⟨.text ['a'], .text [' ', 'b']⟩, ⟨.text ['a', ' '], .text ['b']⟩]
    b.ReadsText p ['a', ' ', 'b'] (.ok found) ∧
    b.Yields p.trim (.text [' ', 'a', ' ', 'b'])
      (.ok [⟨.text ['a'], .text ['b']⟩, ⟨.text ['a', ' '], .text ['b']⟩]) := by
  intro b p found
  have reads : b.ReadsText p ['a', ' ', 'b'] (.ok found) := by
    refine ⟨.of_process (.of_quiet rfl) (.of_quiet rfl) rfl rfl (.of_deep 1 fun _ _ => rfl), ?_⟩
    intro ds same
    obtain rfl := Except.ok.inj same
    simp only [found, List.forall_mem_cons]
    exact ⟨⟨trivial, .of_quiet rfl, _, rfl⟩, ⟨trivial, .of_quiet rfl, _, rfl⟩, nofun⟩
  obtain ⟨-, -, trimmed⟩ := Effects.blanks_are_skipped_once b p [' ', 'a', ' ', 'b']
  exact ⟨reads, (trimmed _ reads).2.1⟩

end GrammarKit
