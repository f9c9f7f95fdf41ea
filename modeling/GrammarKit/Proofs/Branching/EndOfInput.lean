import GrammarKit.Proofs.Branching.Filtering
import GrammarKit.Proofs.Growth

/-! # The end of the input

Which derivations have consumed the whole input can be asked in two ways: afterwards, of the result
list that parsing has handed out, or by a parser that looks, after each derivation, whether another
item is there. Looking consumes nothing, so both ways select the same derivations.
-/

namespace GrammarKit

/-! ## Items -/

/-- What is left of a sequence with some items without the first one of them. -/
def Value.behindFirst (contents : List Value) : Value → Value
  | .derivation _ _ => .tuple contents.tail
  | .result _ => .list contents.tail
  | v => v.drop 1

theorem Value.uncons?_of_items {results : Results} {v : Value} {contents : List Value}
    (items : v.items results = .ok contents) :
    v.uncons? results = .ok (contents.head?.map fun first => (first, v.behindFirst contents)) := by
  cases v with
  | text _ | bytes _ | list _ | tuple _ =>
    obtain rfl := Except.ok.inj items
    refine uncons?_of_isSequence ?_ results
    trivial
  | derivation _ _ =>
    obtain rfl := Except.ok.inj items
    rfl
  | result a =>
    obtain rfl := Except.ok.inj items
    rw [uncons?]
    cases results.read a <;> rfl
  | _ => cases items

theorem Value.length_of_items {results : Results} {v : Value} {contents : List Value}
    (items : v.items results = .ok contents) : v.length results = .ok contents.length := by
  cases v with
  | text _ | bytes _ | list _ | tuple _ | derivation _ _ | result _ =>
    obtain rfl := Except.ok.inj items
    simp [length, ofChars, ofBytes]
  | _ => cases items

/-- The derivations of a result list that left nothing. -/
theorem completeOnes_eq {results : Results} {contents : Value → List Value}
    {ds : List Derivation}
    (items : ∀ d ∈ ds, d.remainder.items results = .ok (contents d.remainder)) :
    Evaluator.completeOnes results ds =
      .ok (ds.filter fun d => (contents d.remainder).isEmpty) := by
  induction ds with
  | nil => rfl
  | cons d ds ih =>
    obtain ⟨first, others⟩ := List.forall_mem_cons.mp items
    rw [Evaluator.completeOnes, Value.length_of_items first, ih others, List.filter_cons]
    cases contents d.remainder <;> rfl

/-! ## Looking ahead -/

/-- The function that runs a parser after a value, and then has the value. -/
def Callback.looking (look : Term) : Callback :=
  .closure [⟨"v", .standard, none⟩]
    (.apply (.method .andThen)
      [look, .function [⟨"w", .standard, none⟩] (.apply (.make .result) [.variable "v"])]) []

/-- A look for the end. -/
def Term.atEnd : Term := .apply (.method .negate) [.apply (.make .item) []]

/-- The function that goes on with a value at the end only. -/
def Callback.atEnd : Callback := .looking .atEnd

/-- The function that goes on with a value before the end only. -/
def Callback.beforeEnd : Callback := .looking (.apply (.method .negate) [.atEnd])

/-- What has the value, whatever was seen. -/
def Callback.keeping (v : Value) : Callback :=
  .closure [⟨"w", .standard, none⟩] (.apply (.make .result) [.variable "v"]) [("v", v)]

namespace Effects

variable {b c : Effects} {p : Parser} {v w x : Value} {ds : List Derivation}

theorem gives_keeping (v w : Value) :
    b.Gives (.function (.keeping v)) [w] (.ok (.parser (.result v))) :=
  Settles.of_deep 4 fun _ _ => rfl

theorem gives_atEnd (v : Value) :
    b.Gives (.function .atEnd) [v] (.ok (.parser (Parser.item.negate.step (.keeping v)))) :=
  Settles.of_deep 6 fun _ _ => rfl

theorem gives_beforeEnd (v : Value) :
    b.Gives (.function .beforeEnd) [v]
      (.ok (.parser (Parser.item.negate.negate.step (.keeping v)))) :=
  Settles.of_deep 7 fun _ _ => rfl

/-- Where a parser fails, its negation has the input; elsewhere, it fails. -/
theorem yields_negate (first : b.Yields p x (.ok ds)) :
    b.Yields p.negate x (.ok (if ds.isEmpty then [⟨x, x⟩] else [])) := by
  refine .of_process (.of_parts (Value.shownBy_negate p) ?_) first.read rfl rfl ?_
  · exact List.forall_mem_singleton.mpr first.shown
  · refine first.settles.bind (Settles.congr (Settles.lift (.ok _)) fun n s _ => ?_)
    cases ds <;> rfl

/-- Whether a value is a sequence, with the same items wherever `b` starts and later on. -/
def HasItems (b : Effects) (v : Value) (contents : List Value) : Prop :=
  ∀ s t, b.start s → s.Lists t → v.items t.results = .ok contents

variable {contents : List Value}

theorem hasItems_of_isSequence (sequence : v.IsSequence) : b.HasItems v v.elements := by
  intro s t _ _
  cases v with
  | text _ | bytes _ | list _ | tuple _ => rfl
  | _ => exact sequence.elim

theorem HasItems.yields_item (items : b.HasItems x contents) (read : b.Shows x) :
    b.Yields .item x
      (.ok (contents.head?.map fun first => ⟨first, x.behindFirst contents⟩).toList) := by
  refine .of_process (.of_parts Value.shownBy_item (List.forall_mem_nil _)) read rfl rfl
    ⟨0, fun n _ s start => ⟨s, b.refl s start, ?_⟩⟩
  have split := Value.uncons?_of_items (items s s start (.refl s))
  refine (Eval.lift_bind split _ s).trans ?_
  cases contents <;> rfl

/-- The end is where there is no item. -/
theorem HasItems.yields_atEnd (items : b.HasItems x contents) (read : b.Shows x) :
    b.Yields Parser.item.negate x (.ok (if contents.isEmpty then [⟨x, x⟩] else [])) := by
  have looked := yields_negate (items.yields_item read)
  cases contents <;> exact looked

theorem HasItems.yields_beforeEnd (items : b.HasItems x contents) (read : b.Shows x) :
    b.Yields Parser.item.negate.negate x
      (.ok (if !contents.isEmpty then [⟨x, x⟩] else [])) := by
  have looked := yields_negate (items.yields_atEnd read)
  cases contents <;> exact looked

/-- After a look that consumes nothing, there is the value, if something was seen. -/
theorem yields_keeping {h : Bool} (looked : b.Yields p x (.ok (if h then [⟨x, x⟩] else [])))
    (given : v ≠ .missing) (shown : b.Shows v) :
    b.Yields (p.step (.keeping v)) x (.ok (if h then [⟨v, x⟩] else [])) := by
  cases h with
  | true =>
    exact yields_bind_only rfl looked (gives_keeping v x) (yields_result shown looked.read given)
  | false =>
    have none : b.Yields (p.step (.keeping v)) x (continued (fun _ => .ok []) []) :=
      yields_bind rfl looked (List.forall_mem_nil _)
    exact none

/-- A look after each derivation keeps some of them, in their order. -/
theorem YieldsInto.looking {f : Callback} {q : Parser} {keeps : Derivation → Bool}
    (found : b.YieldsInto c p x (.ok ds)) (unary : (Value.function f).arity 2 = 1)
    (looking : ∀ v, c.Gives (.function f) [v] (.ok (.parser (q.step (.keeping v)))))
    (looked : ∀ d ∈ ds, c.Yields q d.remainder
      (.ok (if keeps d then [⟨d.remainder, d.remainder⟩] else [])))
    (given : ∀ d ∈ ds, d.value ≠ .missing) (shown : ∀ d ∈ ds, c.Shows d.value) :
    b.YieldsInto c (p.step f) x (.ok (ds.filter keeps)) := by
  rw [← continued_contribution]
  refine found.bind fun d member => (settles_continuation unary (looking d.value)).bind ?_
  have kept := yields_keeping (looked d member) (given d member) (shown d member)
  cases holds : keeps d <;> rw [holds] at kept <;> exact kept.settles

/-! ## Result lists -/

/-- From some depth on, the evaluation hands out a result list of these derivations, after it has
led to where `c` starts. -/
def HandsOut (b c : Effects) (m : Evaluator → Eval Value) (ds : List Derivation) : Prop :=
  ∃ depth, ∀ n, depth ≤ n → ∀ s, b.start s → ∃ t u address, c.start t ∧ t.Lists u ∧
    u.Holds address ds ∧ m (evaluator n) s = .ok (.result address) u

theorem YieldsInto.handsOut (found : b.YieldsInto c p x (.ok ds)) :
    b.HandsOut c (fun ev => ev.applyMethod .parse [.parser p, x]) ds := by
  obtain ⟨depth, ends⟩ := found.leads
  refine ⟨depth, fun n deep s start => ?_⟩
  obtain ⟨t, there, ran⟩ := ends n deep s start
  refine ⟨t, { t with results := t.results.push ds }, t.results.size, there, .newResult t ds,
    t.holds_newResult ds, ?_⟩
  exact Eval.bind_of_eq_ok ran _

/-- The derivations of a result list that have consumed everything. -/
theorem HandsOut.complete {m : Evaluator → Eval Value} {contents : Value → List Value}
    (handsOut : b.HandsOut c m ds)
    (items : ∀ d ∈ ds, c.HasItems d.remainder (contents d.remainder)) :
    b.HandsOut c (fun ev => do ev.applyMethod .complete [← m ev])
      (ds.filter fun d => (contents d.remainder).isEmpty) := by
  obtain ⟨depth, ends⟩ := handsOut
  refine ⟨depth, fun n deep s start => ?_⟩
  obtain ⟨t, u, address, there, grows, holds, ran⟩ := ends n deep s start
  have kept := completeOnes_eq fun d member => items d member t u there grows
  let found := ds.filter fun d => (contents d.remainder).isEmpty
  refine ⟨t, { u with results := u.results.push found }, u.results.size, there,
    grows.trans (.newResult u found), u.holds_newResult found, ?_⟩
  refine (Eval.bind_of_eq_ok ran _).trans ?_
  change (do Store.newResult (← (Evaluator.completeOnes u.results (u.results.read address) :
    Except Error _)) : Eval Value) u = _
  rw [holds.2, kept]
  rfl

/-- The end of the input can be asked for in two ways. Of the derivations of a parser, whose values
are given and which leave sequences that nothing changes, those that have consumed everything are
selected from the result list by its method; a look for the end after each derivation has the same
ones, in the same order, and a look for what is not the end has exactly the others. That holds
whatever the parser has done before, and for every kind of sequence that it leaves. -/
theorem end_of_input_two_ways {contents : Value → List Value} (found : b.YieldsInto c p x (.ok ds))
    (given : ∀ d ∈ ds, d.value ≠ .missing)
    (shown : ∀ d ∈ ds, c.Shows d.value ∧ c.Shows d.remainder)
    (items : ∀ d ∈ ds, c.HasItems d.remainder (contents d.remainder)) :
    b.HandsOut c (fun ev => do
        ev.applyMethod .complete [← ev.applyMethod .parse [.parser p, x]])
      (ds.filter fun d => (contents d.remainder).isEmpty) ∧
    b.HandsOut c (fun ev => ev.applyMethod .parse [.parser (p.step .atEnd), x])
      (ds.filter fun d => (contents d.remainder).isEmpty) ∧
    b.HandsOut c (fun ev => ev.applyMethod .parse [.parser (p.step .beforeEnd), x])
      (ds.filter fun d => !(contents d.remainder).isEmpty) := by
  have values : ∀ d ∈ ds, c.Shows d.value := fun d member => (shown d member).1
  have atEnd := found.looking rfl gives_atEnd
    (fun d member => (items d member).yields_atEnd (shown d member).2) given values
  have beforeEnd := found.looking rfl gives_beforeEnd
    (fun d member => (items d member).yields_beforeEnd (shown d member).2) given values
  exact ⟨found.handsOut.complete items, atEnd.handsOut, beforeEnd.handsOut⟩

/-- One or two characters of a text of two: one derivation leaves nothing. -/
theorem end_of_input_two_ways_oneOrTwo :
    let b := messages Store.initial
    let p := Parser.ofShape (.splits [.int 1, .int 2])
    let found : List Derivation := [⟨.text ['a'], .text ['b']⟩, ⟨.text ['a', 'b'], .text []⟩]
    b.YieldsInto b p (.text ['a', 'b']) (.ok found) ∧
    (∀ d ∈ found, d.value ≠ .missing) ∧
    (∀ d ∈ found, b.HasItems d.remainder d.remainder.elements) ∧
    b.HandsOut b (fun ev => ev.applyMethod .parse [.parser (p.step .atEnd), .text ['a', 'b']])
      [⟨.text ['a', 'b'], .text []⟩] ∧
    b.HandsOut b (fun ev => ev.applyMethod .parse [.parser (p.step .beforeEnd), .text ['a', 'b']])
      [⟨.text ['a'], .text ['b']⟩] := by
  intro b p found
  have yields : b.YieldsInto b p (.text ['a', 'b']) (.ok found) :=
    yieldsInto_of_parse (n := 1) rfl rfl rfl
  have given : ∀ d ∈ found, d.value ≠ .missing := by
    simp only [found, List.forall_mem_cons]
    exact ⟨by nofun, by nofun, nofun⟩
  have items : ∀ d ∈ found, b.HasItems d.remainder d.remainder.elements := by
    simp only [found, List.forall_mem_cons]
    exact ⟨hasItems_of_isSequence trivial, hasItems_of_isSequence trivial, nofun⟩
  obtain ⟨-, atEnd, beforeEnd⟩ := end_of_input_two_ways yields given
    (fun _ _ => ⟨.of_quiet rfl, .of_quiet rfl⟩) items
  exact ⟨yields, given, items, atEnd, beforeEnd⟩

end Effects

end GrammarKit
