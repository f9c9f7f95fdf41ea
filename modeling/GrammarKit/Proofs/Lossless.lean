import GrammarKit.Proofs.Branching.StartsWith
import GrammarKit.Proofs.Characters
import GrammarKit.Proofs.Finding

/-! # Parsers that lose no character

A parser of texts may find several derivations of an input, or none. If in each of them the value is
what has been taken from the input, nothing is lost: the value and the remainder together are the
input. The ready-made parsers of characters and words are like that, and so is what is put together
from such parsers by filtering, choices, repetition and joining.
-/

namespace GrammarKit

open Eval

/-- Whether a derivation divides a text into its value and its remainder. -/
def Derivation.Divides (d : Derivation) (cs : List Char) : Prop :=
  ∃ value rest, d = ⟨.text value, .text rest⟩ ∧ value ++ rest = cs

/-- Whether, from a store on, every derivation that is found for a text divides it. -/
def Parser.Lossless (s : Store) (p : Parser) : Prop :=
  ∀ cs d, p.FindsFrom s (.text cs) d → d.Divides cs

/-- Whether a function, given a text, returns a parser that runs `q` and puts the text before the
value of that. -/
structure Value.Joins (s : Store) (f : Value) (q : Parser) : Prop where
  callable : f.isCallable = true
  joins : ∀ a rest w, f.ReturnsFrom s (f.received (.text a) rest) w → ∃ g name,
    w = .parser (.node (.bind q g (.bool false)) .none name) ∧ g.isCallable = true ∧
      ∀ b rest u, g.ReturnsFrom s (g.received (.text b) rest) u → u = .text (a ++ b)

/-- The function of `a` that runs `q` and adds the value of that to `a`. -/
def Callback.joining (q : Parser) (scope : Scope) : Callback :=
  .closure [⟨"a", .standard, none⟩]
    (.apply (.method .andThen) [.variable "q", .function [⟨"b", .standard, none⟩]
      (.apply (.operator .add) [.variable "a", .variable "b"])])
    (("q", .parser q) :: scope)

variable {s : Store} {p q : Parser} {f condition : Value} {name : Option Value}

theorem Value.joins_joining (q : Parser) (scope : Scope) :
    (Value.function (.joining q scope)).Joins s q where
  callable := rfl
  joins a rest w returns := by
    let sum : Callback := .closure [⟨"b", .standard, .none⟩]
      (.apply (.operator .add) [.variable "a", .variable "b"])
      (("a", .text a) :: ("q", .parser q) :: scope)
    have given : w = .parser (q.step sum) := returns.eq_of_deep 4 fun _ _ => rfl
    exact ⟨.function sum, .none, given, rfl, fun b rest u returns =>
      returns.eq_of_deep 4 fun _ _ => rfl⟩

namespace Parser.Lossless

variable {ps : List Parser}

/-! ## Combinators -/

/-- Values are handed on by a test, or not. -/
theorem satisfy (lossless : p.Lossless s) :
    (node (.bind p (.function (.test condition)) (.bool false)) none name).Lossless s := by
  intro cs d finds
  obtain ⟨e, w, first, tested, inside⟩ := finds.of_bind rfl
  obtain ⟨v, rest, rfl, joined⟩ := lossless cs e first
  have kept : w = .text v ∨ w = .parser Parser.zero := by
    refine tested.of_step (Q := fun w => w = .text v ∨ w = .parser Parser.zero) fun ev => ?_
    have anything {α : Type} (m : Eval α) : Maintains (fun _ => True) m fun _ => True :=
      fun _ _ _ _ _ => ⟨trivial, trivial⟩
    refine (anything (ev.call condition [.text v])).bind fun u _ => ?_
    refine (anything (Evaluator.truth u)).bind fun h _ => ?_
    exact .ite (fun _ => .pure (.inl rfl)) fun _ => .pure (.inr rfl)
  rcases kept with rfl | rfl
  · exact ⟨v, rest, inside.eq_of_isPlain (v := .text v) trivial, joined⟩
  · exact absurd inside not_findsFrom_zero

theorem choice (all : ∀ p ∈ ps, p.Lossless s) : (node (.choice ps) none name).Lossless s := by
  intro cs d finds
  obtain ⟨p, member, finds⟩ := finds.of_choice
  exact all p member cs d finds

/-- The values on a path of repetitions, joined, and what it leaves make up the input. -/
theorem many (lossless : p.Lossless s) :
    (node (.many p (.strategy .text)) none name).Lossless s := by
  intro cs d finds
  refine finds.of_many (O := (·.Divides cs)) (K := fun values rest => ∃ parts left,
    values = parts.map Value.text ∧ rest = .text left ∧ List.flatten parts ++ left = cs)
    ⟨[], cs, rfl, rfl, rfl⟩ ?_ ?_
  · rintro _ _ d ⟨parts, left, rfl, rfl, joined⟩ found
    obtain ⟨v, rest, rfl, cut⟩ := lossless left d found
    refine ⟨parts ++ [v], rest, by rw [List.map_append]; rfl, rfl, ?_⟩
    rw [← joined, ← cut, List.flatten_append, List.flatten_singleton, List.append_assoc]
  · rintro _ _ v ⟨parts, left, rfl, rfl, joined⟩ gathered
    rw [accumulateValues_texts] at gathered
    cases gathered
    exact ⟨parts.flatten, left, rfl, joined⟩

theorem bind (joins : f.Joins s q) (first : p.Lossless s) (second : q.Lossless s) :
    (node (.bind p f (.bool false)) none name).Lossless s := by
  intro cs d finds
  obtain ⟨e, w, found, returned, inside⟩ := finds.of_bind joins.callable
  obtain ⟨a, rest, rfl, cut⟩ := first cs e found
  obtain ⟨g, name', rfl, callable, sum⟩ := joins.joins a (.text rest) w returned
  obtain ⟨e', u, found', returned', inside'⟩ := FindsFrom.of_bind callable inside
  obtain ⟨b, left, rfl, cut'⟩ := second rest e' found'
  obtain rfl := sum b (.text left) u returned'
  refine ⟨a ++ b, left, inside'.eq_of_isPlain (v := .text (a ++ b)) trivial, ?_⟩
  rw [List.append_assoc, cut', cut]

/-! ## Characters -/

theorem zero : Parser.zero.Lossless s := fun _ _ finds => absurd finds not_findsFrom_zero

theorem item : Parser.item.Lossless s := by
  intro cs d finds
  refine finds.of_process (P := (·.Divides cs)) rfl fun n => Maintains.readResults.bind ?_
  intro results _
  cases cs with
  | nil => exact .pure (List.forall_mem_nil _)
  | cons c cs => exact .pure (List.forall_mem_singleton.mpr ⟨[c], cs, rfl, rfl⟩)

/-- The empty text, with nothing consumed. -/
theorem result : (Parser.result (.text [])).Lossless s := by
  intro cs d finds
  have same : d = ⟨.text [], .text cs⟩ := finds.eq_of_isPlain (v := .text []) trivial
  exact ⟨[], cs, same, rfl⟩

theorem orElse {qs : List Parser} (first : p.Lossless s) (others : ∀ q ∈ qs, q.Lossless s) :
    (p.orElse (qs.map .parser)).Lossless s := by
  refine choice (List.forall_mem_cons.mpr ⟨first, ?_⟩)
  rw [List.map_map]
  exact List.forall_mem_map.mpr others

theorem orNone (lossless : p.Lossless s) : (p.orElse [.text []]).Lossless s :=
  choice (List.forall_mem_cons.mpr ⟨lossless, List.forall_mem_singleton.mpr result⟩)

theorem manyOrNone (lossless : p.Lossless s) : (p.manyOrNone .missing .text).Lossless s :=
  lossless.many.orNone

theorem oneOf (members : List Value) (inside : Bool) :
    (node (oneOf members inside).shape none name).Lossless s := item.satisfy

theorem char (v : Value) (shown : List Char) : (Parser.char v shown).Lossless s := item.satisfy

theorem whitespace : Parser.whitespace.Lossless s := by
  have one : (Parser.oneOf Alphabet.whitespace.values true).Lossless s := oneOf _ _
  exact choice (List.forall_mem_cons.mpr ⟨one.many, List.forall_mem_singleton.mpr result⟩)

theorem letter : Parser.letter.Lossless s := oneOf _ _

/-- The characters after the first one are put after it. -/
theorem identifier : Parser.identifier.Lossless s := by
  let tail := (Parser.oneOf (.text ['_'] :: Alphabet.alphanumeric.values) true).manyOrNone
    .missing .text
  have others : tail.Lossless s := manyOrNone (oneOf _ _)
  have first : (Parser.letter.orElse [.parser (charText ['_'])]).Lossless s :=
    letter.orElse (List.forall_mem_singleton.mpr (char _ _))
  refine bind (q := tail) ⟨rfl, fun a rest w returns => ?_⟩ first others
  have given : w = .parser (wordTail (.text a)) := returns.eq_of_deep 2 fun _ _ => rfl
  exact ⟨.function (.wordJoin (.text a)), none, given, rfl, fun b rest u returns =>
    returns.eq_of_deep 2 fun _ _ => rfl⟩

/-! ## Literal texts -/

/-- What has been joined is the value, or else the whole that it equals. -/
theorem eq_of_spellJoin {expected a b : List Char} {allowShort w : Value}
    (returns : (Value.function (.spellJoin (.text expected) allowShort (.text a))).ReturnsFrom s
      [.text b] w) : w = .text (a ++ b) ∨ w = .parser .zero := by
  refine returns.of_step (Q := fun w => w = .text (a ++ b) ∨ w = .parser .zero) fun ev => ?_
  have joined : Maintains (fun _ => True)
      (Evaluator.joinSpelled (.text expected) (.text a) (.text b)) (· = .text (a ++ b)) :=
    .pure rfl
  have truth : Maintains (fun _ => True) (Evaluator.truth allowShort) fun _ => True :=
    Maintains.readResults.bind fun _ _ => .pure trivial
  have equal : Maintains (fun _ => True) (ev.equal (.text (a ++ b)) (.text expected)) fun h =>
      h = (a ++ b == expected) :=
    Maintains.readResults.bind fun results _ => .liftStop fun h compared => by
      rw [Value.equal_text] at compared
      cases compared
      rfl
  refine joined.bind ?_
  rintro _ rfl
  refine truth.bind fun short _ => .ite (fun _ => .pure (.inl rfl)) fun _ => equal.bind ?_
  rintro h rfl
  refine .ite (fun whole => .pure (.inl ?_)) fun _ => .pure (.inr rfl)
  rw [beq_iff_eq.mp whole]

/-- The step after the first character goes on with the others. -/
theorem eq_of_spellRest {c : Char} {expected : List Char} {allowShort v w : Value}
    (returns : (Value.function (.spellRest .item (.text (c :: expected)) allowShort)).ReturnsFrom s
      [v] w) : w = .parser ((Parser.item.speller (.text expected) allowShort).bind
        (.function (.spellJoin (.text (c :: expected)) allowShort v)) (.bool true)) := by
  refine returns.of_step (Q := (· = _)) fun ev => Maintains.readResults.bind fun results _ => ?_
  have cut : (Value.text (c :: expected)).slice results (.int 1) .none .none =
      .ok (.text expected) := Value.slice_natCast (v := .text _) trivial results 1
  have text : (Value.text expected).IsSequence := trivial
  have spelled : Parser.item.spell results (.text expected) allowShort = _ :=
    spell_of_isSequence text results allowShort
  rw [cut]
  refine Maintains.bind (P := (· = .text expected)) (.pure rfl) ?_
  rintro _ rfl
  rw [spelled]
  exact Maintains.bind (P := (· = _)) (.pure rfl) fun q same => .pure (by rw [same])

/-- A character is matched, and put before what the others have matched, if anything. -/
theorem spellNext {c : Char} {expected : List Char} {allowShort : Value}
    (others : (Parser.item.speller (.text expected) allowShort).Lossless s) :
    (node (.bind (Parser.item.equals (.text [c]))
      (.function (.spellRest .item (.text (c :: expected)) allowShort)) (.bool false)) none
      name).Lossless s := by
  intro cs d finds
  obtain ⟨e, w, first, returned, inside⟩ := FindsFrom.of_bind rfl finds
  have one : (Parser.item.equals (.text [c])).Lossless s := satisfy item
  obtain ⟨a, rest, rfl, cut⟩ := one cs e first
  obtain rfl := eq_of_spellRest returned
  have join {b left : List Char} {u : Value} (cut' : b ++ left = rest)
      (returns : (Value.function (.spellJoin (.text (c :: expected)) allowShort
        (.text a))).ReturnsFrom s [.text b] u)
      (inside : (asParser u).FindsFrom s (.text left) d) : d.Divides cs := by
    rcases eq_of_spellJoin returns with rfl | rfl
    · refine ⟨a ++ b, left, inside.eq_of_isPlain (v := .text (a ++ b)) trivial, ?_⟩
      rw [List.append_assoc, cut', cut]
    · exact absurd inside not_findsFrom_zero
  rcases FindsFrom.of_bind_always rfl inside with
    ⟨e', u, found, returns, inside⟩ | ⟨-, u, returns, inside⟩
  · obtain ⟨b, left, rfl, cut'⟩ := others rest e' found
    exact join cut' returns inside
  · exact join (List.nil_append rest) returns inside

theorem speller (expected : List Char) (allowShort : Value) :
    (Parser.item.speller (.text expected) allowShort).Lossless s := by
  induction expected with
  | nil => exact zero
  | cons c expected ih => exact spellNext ih

end Parser.Lossless

/-! ## Whatever is put together from them -/

/-- What is put together from the parsers of characters and words, and from other parsers, in such
a way that each character goes into the value or is left. -/
inductive Parser.IsTextual (others : Parser → Prop) : Parser → Prop where
  | other {p : Parser} (other : others p) : IsTextual others p
  | zero : IsTextual others .zero
  | item : IsTextual others .item
  | result : IsTextual others (.result (.text []))
  | char (v : Value) (shown : List Char) : IsTextual others (.char v shown)
  | oneOf (members : List Value) (inside : Bool) : IsTextual others (.oneOf members inside)
  | startsWith {results : Results} {cs : List Char} {allowShort : Value} {p : Parser}
      (made : Parser.item.startsWith results (.text cs) allowShort = .ok p) : IsTextual others p
  | literal {results : Results} {cs : List Char} {p : Parser} (shown : List Char)
      (made : Parser.item.startsWith results (.text cs) (.bool false) = .ok p) :
      IsTextual others (p.named (nameAround "literal" shown))
  | whitespace : IsTextual others .whitespace
  | letter : IsTextual others .letter
  | identifier : IsTextual others .identifier
  | satisfy {p : Parser} (condition : Value) (textual : IsTextual others p) :
      IsTextual others (p.satisfy condition)
  | orElse {p : Parser} {qs : List Parser} (textual : IsTextual others p)
      (alternatives : ∀ q ∈ qs, IsTextual others q) :
      IsTextual others (p.orElse (qs.map .parser))
  | orNone {p : Parser} (textual : IsTextual others p) : IsTextual others (p.orElse [.text []])
  | many {p : Parser} (textual : IsTextual others p) : IsTextual others (p.many .text)
  | manyOrNone {p : Parser} (textual : IsTextual others p) :
      IsTextual others (p.manyOrNone .missing .text)
  | join {p q : Parser} (scope : Scope) (first : IsTextual others p)
      (second : IsTextual others q) :
      IsTextual others (p.bind (.function (.joining q scope)) (.bool false))

/-- Parsers of texts lose no character: if each of some parsers divides every text into the value
and the remainder of whatever derivation it finds, so does all that is put together from them and
from the parsers of characters and words. -/
theorem text_parsers_lose_nothing {others : Parser → Prop}
    (all : ∀ p, others p → p.Lossless s) (textual : p.IsTextual others) : p.Lossless s := by
  induction textual with
  | other other => exact all _ other
  | zero => exact .zero
  | item => exact .item
  | result => exact .result
  | char v shown => exact .char v shown
  | oneOf members inside => exact .oneOf members inside
  | startsWith made =>
    obtain ⟨c, rest, -, rfl⟩ := Parser.eq_speller_of_startsWith made
    exact .speller (c :: rest) _
  | literal shown made =>
    obtain ⟨c, rest, -, rfl⟩ := Parser.eq_speller_of_startsWith made
    exact .spellNext (.speller rest _)
  | whitespace => exact .whitespace
  | letter => exact .letter
  | identifier => exact .identifier
  | satisfy condition _ ih => exact ih.satisfy
  | orElse _ _ ih ihs => exact ih.orElse ihs
  | orNone _ ih => exact ih.orNone
  | many _ ih => exact ih.many
  | manyOrNone _ ih => exact ih.manyOrNone
  | join scope _ _ first second => exact .bind (Value.joins_joining _ scope) first second

/-- The parts before and after a split make up what is split. -/
theorem Evaluator.divides_of_splitAt {results : Results} {cs : List Char} (sizes : List Nat)
    {ds : List Derivation}
    (found : splitAt results (.text cs) (sizes.map fun (k : Nat) => .int k) = .ok ds) :
    ∀ d ∈ ds, d.Divides cs := by
  induction sizes generalizing ds with
  | nil =>
    cases found
    exact List.forall_mem_nil _
  | cons k sizes ih =>
    have before : (Value.text cs).slice results .none (.int k) .none = .ok (.text (cs.take k)) := by
      rw [← sliceList_take]
      rfl
    have after : (Value.text cs).slice results (.int k) .none .none = .ok (.text (cs.drop k)) :=
      Value.slice_natCast (v := .text cs) trivial results k
    obtain ⟨length, _, found⟩ := Except.bind_eq_ok_iff.mp found
    obtain ⟨h, _, found⟩ := Except.bind_eq_ok_iff.mp found
    cases h with
    | false => exact ih found
    | true =>
      obtain ⟨_, taken, found⟩ := Except.bind_eq_ok_iff.mp found
      obtain ⟨_, left, found⟩ := Except.bind_eq_ok_iff.mp found
      obtain ⟨rest, others, found⟩ := Except.bind_eq_ok_iff.mp found
      cases before.symm.trans taken
      cases after.symm.trans left
      cases found
      exact List.forall_mem_cons.mpr ⟨⟨_, _, rfl, List.take_append_drop k cs⟩, ih others⟩

theorem Parser.Lossless.splits (sizes : List Nat) :
    (ofShape (.splits (sizes.map fun (k : Nat) => .int k))).Lossless s := by
  intro cs d finds
  refine finds.of_process (P := (·.Divides cs)) rfl fun n => Maintains.readResults.bind ?_
  exact fun results _ => .lift fun ds => Evaluator.divides_of_splitAt sizes

/-- One or two characters, and one more if there is one: all that is found on three characters. -/
theorem text_parsers_lose_nothing_abc :
    let split : Parser := .ofShape (.splits [.int 1, .int 2])
    let p := split.bind (.function (.joining (Parser.item.orElse [.text []]) [])) (.bool false)
    (∀ q, q = split → q.Lossless Store.initial) ∧ p.IsTextual (· = split) ∧
    p.FindsFrom Store.initial (.text ['a', 'b', 'c']) ⟨.text ['a', 'b'], .text ['c']⟩ ∧
    p.FindsFrom Store.initial (.text ['a', 'b', 'c']) ⟨.text ['a', 'b', 'c'], .text []⟩ ∧
    p.Lossless Store.initial := by
  intro split p
  have all : ∀ q, q = split → q.Lossless Store.initial := by
    rintro _ rfl
    exact .splits [1, 2]
  have textual : p.IsTextual (· = split) := .join [] (.other rfl) (.orNone .item)
  have ran : (evaluator 8).parse p (.text ['a', 'b', 'c']) Store.initial =
      .ok [⟨.text ['a', 'b'], .text ['c']⟩, ⟨.text ['a', 'b', 'c'], .text []⟩]
        Store.initial := rfl
  exact ⟨all, textual, ⟨8, _, _, _, .refl, ran, by simp⟩, ⟨8, _, _, _, .refl, ran, by simp⟩,
    text_parsers_lose_nothing all textual⟩

end GrammarKit
