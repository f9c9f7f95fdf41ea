import GrammarKit.Proofs.DepthFirst
import GrammarKit.Proofs.Standard.Parse

/-! # Standard parsers do not branch, and leave tails

On every input a standard parser has at most one derivation, and on a plain sequence it leaves a
tail of it. Neither holds by the shape of the parser alone, since continuations make new parsers
as they go and lazy parsers refer to themselves: `Unambiguous` is carried through the evaluation,
together with the fact that what continuations and mappings see and give is standard. Repetition
keeps one path at most, open or ended, on its agenda.
-/

namespace GrammarKit

open Eval

variable {r : Reach}

/-- At most one derivation, which is standard, and which left a tail of a plain sequence. -/
structure Unambiguous (r : Reach) (input : Value) (ds : List Derivation) : Prop where
  single : ds.length ≤ 1
  standard : ∀ d ∈ ds, d.Standard r
  tail : input.IsSequence → ∀ d ∈ ds, d.remainder.IsTailOf input

namespace Unambiguous

variable {input : Value} {ds : List Derivation}

theorem nil : Unambiguous r input [] :=
  ⟨Nat.zero_le _, List.forall_mem_nil _, fun _ _ member => (nomatch member)⟩

theorem one {d : Derivation} (standard : d.Standard r)
    (tail : input.IsSequence → d.remainder.IsTailOf input) : Unambiguous r input [d] := by
  refine ⟨Nat.le_refl _, ?_, ?_⟩
  · exact fun other member => List.mem_singleton.mp member ▸ standard
  · exact fun sequence other member => List.mem_singleton.mp member ▸ tail sequence

/-- Nothing consumed. -/
theorem stay {v : Value} (value : v.Standard r) (standard : input.Standard r) :
    Unambiguous r input [⟨v, input⟩] :=
  one ⟨value, standard⟩ fun _ => .refl _

/-- Either there is no derivation, or there is one. -/
theorem eq_nil_or_eq_singleton (unambiguous : Unambiguous r input ds) :
    ds = [] ∨ ∃ d, ds = [d] := by
  have single := unambiguous.single
  match ds with
  | [] => exact .inl rfl
  | [d] => exact .inr ⟨d, rfl⟩
  | _ :: _ :: _ => simp at single

/-- What leaves a tail of a tail leaves a tail. -/
theorem through {middle : Value} (unambiguous : Unambiguous r middle ds)
    (tail : input.IsSequence → middle.IsTailOf input) : Unambiguous r input ds := by
  refine ⟨unambiguous.single, unambiguous.standard, fun sequence d member => ?_⟩
  have plain := (tail sequence).isSequence sequence
  exact (unambiguous.tail plain d member).trans (tail sequence)

end Unambiguous

namespace Evaluator

variable {ev : Evaluator}

/-- Whether calls and uses of what is standard stay within it, without branching. -/
structure KeepsStandard (r : Reach) (ev : Evaluator) : Prop where
  calls : CallsStandard r ev
  parses : ∀ (p : Parser) (input : Value), p.Standard r → input.Standard r →
    Maintains (Store.Standard r) (ev.parse p input) (Unambiguous r input)

theorem maintains_continuation (keeps : KeepsStandard r ev) {next value remainder : Value}
    (continues : next.Standard r) (standard : value.Standard r) (rest : remainder.Standard r) :
    Maintains (Store.Standard r) (ev.continuation next value remainder) (Parser.Standard r) := by
  unfold continuation
  refine Maintains.ite (fun _ => ?_) fun _ =>
    Maintains.pure (Parser.standard_asParser.mpr continues)
  have given : ∀ v ∈ [value, remainder].take (next.arity 2), v.Standard r := by
    intro v member
    have inside := List.mem_of_mem_take member
    simp only [List.mem_cons, List.not_mem_nil, or_false] at inside
    rcases inside with rfl | rfl
    · exact standard
    · exact rest
  refine (keeps.calls next _ continues given).bind fun w result => Maintains.pure ?_
  exact Parser.standard_asParser.mpr result

theorem maintains_continueAll (keeps : KeepsStandard r ev) {next input : Value}
    {found : List Derivation} (continues : next.Standard r)
    (unambiguous : Unambiguous r input found) :
    Maintains (Store.Standard r) (ev.continueAll next found) (Unambiguous r input) := by
  obtain rfl | ⟨d, rfl⟩ := unambiguous.eq_nil_or_eq_singleton
  · exact Maintains.pure .nil
  · have here := unambiguous.standard d List.mem_cons_self
    refine (maintains_continuation keeps continues here.1 here.2).bind fun p parser => ?_
    refine (keeps.parses p d.remainder parser here.2).bind fun ds after => ?_
    refine Maintains.bind (P := (· = [])) (Maintains.pure rfl) ?_
    rintro _ rfl
    rw [List.append_nil]
    exact Maintains.pure
      (after.through fun sequence => unambiguous.tail sequence d List.mem_cons_self)

theorem maintains_firstOf (keeps : KeepsStandard r ev) {input : Value} (standard : input.Standard r)
    (ps : List Parser) (all : ∀ p ∈ ps, p.Standard r) :
    Maintains (Store.Standard r) (ev.firstOf input ps) (Unambiguous r input) := by
  induction ps with
  | nil => exact Maintains.pure .nil
  | cons p ps ih =>
    refine (keeps.parses p input (all p List.mem_cons_self) standard).bind fun found here => ?_
    refine Maintains.ite (fun _ => ?_) fun _ => Maintains.pure here
    exact ih fun q member => all q (List.mem_cons_of_mem _ member)

theorem maintains_readCell {address : Nat} (reached : r.cell address) :
    Maintains (Store.Standard r) (Store.readCell address) fun cell =>
      (cell.definition = none → Value.OptionStandard r cell.factory) ∧
        ∀ p, cell.definition = some p → p.Standard r :=
  Maintains.get (Q := Store.Standard r) (fun _ start => start) |>.bind fun _ start =>
    Maintains.pure ⟨start.factory address reached, start.definition address reached⟩

/-- A lazy parser within reach has a standard definition, also if it is made just now. -/
theorem maintains_resolve (keeps : KeepsStandard r ev) {address : Nat} {owner : Value}
    (reached : r.cell address) (standard : owner.Standard r) :
    Maintains (Store.Standard r) (ev.resolve address owner) (Parser.Standard r) := by
  refine (maintains_readCell reached).bind fun cell within => ?_
  obtain ⟨makes, defined⟩ := within
  split
  · next p definition => exact Maintains.pure (defined p definition)
  · next undefined =>
    split
    · exact Maintains.raise _
    · next factory made =>
      have makes := makes undefined
      rw [made] at makes
      have given : ∀ v ∈ [owner].take (factory.arity 1), v.Standard r :=
        fun v member => List.mem_singleton.mp (List.mem_of_mem_take member) ▸ standard
      refine (Store.maintains_supply address
        (keeps.calls factory _ makes given)).bind fun w result => ?_
      have parser := Parser.standard_asParser.mpr result
      refine (Store.maintains_defineCell parser).bind fun _ _ => ?_
      refine (Maintains.get fun _ _ => trivial).bind fun state (_ : True) => ?_
      refine Maintains.ite (fun _ => ?_) fun _ => Maintains.pure parser
      have told : Maintains (Store.Standard r) (ev.logResolved address owner) fun _ => True :=
        (maintains_describe owner).bind fun _ _ =>
          (maintains_log Store.Standard.quiet _).bind fun _ _ =>
            Maintains.update (fun _ start => start.note address .told) trivial
      exact told.bind fun _ _ => Maintains.pure parser

/-- A path through standard values, which has left a tail so far. -/
structure StandardPath (r : Reach) (input : Value) (path : Path) : Prop extends
    path.Standard r where
  tail : input.IsSequence → path.remainder.IsTailOf input

/-- The agenda of a repetition never holds more than one path, if the repeated parser does not
branch: a path on the agenda has no derivation beside it. -/
theorem maintains_explore {step : Value → Eval (List Derivation)} {accumulate input : Value}
    (steps : ∀ v : Value, v.Standard r →
      Maintains (Store.Standard r) (step v) (Unambiguous r v))
    (budget : Nat) (agenda : List Path) (out : List Derivation)
    (single : agenda.length + out.length ≤ 1) (open_ : ∀ p ∈ agenda, StandardPath r input p)
    (ended : Unambiguous r input out) :
    Maintains (Store.Standard r) (explore step (accumulateValues accumulate) budget agenda out)
      (Unambiguous r input) := by
  induction budget, agenda, out using explore.induct with
  | case1 budget out =>
    rw [explore]
    obtain rfl | ⟨d, rfl⟩ := ended.eq_nil_or_eq_singleton
    · exact Maintains.pure ended
    · exact Maintains.pure ended
  | case2 budget out path rest zero ih =>
    obtain ⟨rfl, rfl⟩ : rest = [] ∧ out = [] := by
      simp only [List.length_cons] at single
      exact ⟨List.eq_nil_of_length_eq_zero (by omega), List.eq_nil_of_length_eq_zero (by omega)⟩
    rw [explore_ended _ _ _ zero]
    have here := open_ path List.mem_cons_self
    refine (Maintains.lift fun _ gathered => Value.hereditary_standard.accumulateValues
      (fun v member => here.values v (List.mem_reverse.mp member)) gathered).bind ?_
    intro value standard
    refine ih value (Nat.le_refl _) (List.forall_mem_nil _) ?_
    exact .one ⟨standard, here.remainder⟩ here.tail
  | case3 budget out path rest zero ih1 ih2 ih3 ih4 =>
    obtain ⟨rfl, rfl⟩ : rest = [] ∧ out = [] := by
      simp only [List.length_cons] at single
      exact ⟨List.eq_nil_of_length_eq_zero (by omega), List.eq_nil_of_length_eq_zero (by omega)⟩
    have here := open_ path List.mem_cons_self
    rw [explore, if_neg zero]
    refine (steps path.remainder here.remainder).bind fun found unambiguous => ?_
    refine Maintains.ite (fun _ => Maintains.ite (fun _ => ?_) fun _ => ?_) fun _ => ?_
    · exact ih1 (Nat.zero_le _) (List.forall_mem_nil _) .nil
    · refine (Maintains.lift fun _ gathered => Value.hereditary_standard.accumulateValues
        (fun v member => here.values v (List.mem_reverse.mp member)) gathered).bind ?_
      intro value standard
      refine ih2 value (Nat.le_refl _) (List.forall_mem_nil _) ?_
      exact .one ⟨standard, here.remainder⟩ here.tail
    · refine Store.maintains_readResults.bind fun results store => ?_
      refine (Maintains.lift fun _ extended => Path.exists_of_mem_extendAll _ extended).bind ?_
      rintro opened ⟨length, each⟩
      have few : (opened ++ []).length + ([] : List Derivation).length ≤ 1 := by
        simpa [length] using unambiguous.single
      have good : ∀ p ∈ opened ++ [], StandardPath r input p := by
        intro p member
        obtain ⟨d, inside, values, remainder⟩ := each p (by simpa using member)
        have standard := unambiguous.standard d inside
        refine ⟨⟨?_, remainder ▸ standard.2⟩, fun sequence => ?_⟩
        · rw [values]
          exact List.forall_mem_cons.mpr ⟨standard.1, here.values⟩
        · have plain := (here.tail sequence).isSequence sequence
          exact remainder ▸ (unambiguous.tail plain d inside).trans (here.tail sequence)
      split
      · next low => exact ih3 opened low few good .nil
      · cases budget with
        | zero => exact Maintains.throw _
        | succ budget => exact ih4 opened few good .nil

/-- What each of the basic variants does with an input, given what its parts do. -/
theorem maintains_process (keeps : KeepsStandard r ev) {p : Parser} {input : Value}
    (parser : p.Standard r) (standard : input.Standard r) :
    Maintains (Store.Standard r) (ev.process p input) (Unambiguous r input) := by
  obtain ⟨shape, mapping, name⟩ := p
  have basic : shape.Standard r := parser.1
  cases shape with
  | unit v =>
    cases v with
    | missing => exact Maintains.pure (.stay standard standard)
    | _ => exact Maintains.pure (.stay basic standard)
  | zero => exact Maintains.pure .nil
  | item =>
    refine Store.maintains_readResults.bind fun results store => ?_
    refine (Maintains.lift (Q := fun parts => input.uncons? results = .ok parts)
      fun _ split => split).bind fun parts split => ?_
    cases parts with
    | none => exact Maintains.pure .nil
    | some parts =>
      exact Maintains.pure (.one (Value.hereditary_standard.uncons? store.all standard split)
        fun sequence => Value.isTailOf_of_uncons? sequence split)
  | negation q =>
    refine (keeps.parses q input basic standard).bind fun found _ => ?_
    exact Maintains.ite (fun _ => Maintains.pure (.stay standard standard))
      fun _ => Maintains.pure .nil
  | bind q next always =>
    refine (keeps.parses q input basic.1 standard).bind fun found unambiguous => ?_
    refine Maintains.ite (fun _ => ?_) fun _ =>
      maintains_continueAll keeps basic.2.1 unambiguous
    refine (maintains_truth basic.2.2).bind fun anyway _ => ?_
    refine Maintains.ite (fun _ => ?_) fun _ => Maintains.pure .nil
    have nothing : (Value.text []).Standard r := trivial
    refine (maintains_continuation keeps basic.2.1 nothing standard).bind fun next parser => ?_
    exact keeps.parses next input parser standard
  | choice ps => exact maintains_firstOf keeps standard ps ((Parser.allStandard_iff ps).mp basic)
  | many q accumulate =>
    refine Store.maintains_readResults.bind fun results _ => ?_
    refine maintains_explore (fun v inside => keeps.parses q v basic.1 inside) _ _ _
      (Nat.le_refl _) ?_ .nil
    intro path member
    obtain rfl := List.mem_singleton.mp member
    exact ⟨⟨List.forall_mem_nil _, standard⟩, fun _ => Value.IsTailOf.refl _⟩
  | lazy address =>
    have owner : (Value.parser (.node (.lazy address) mapping name)).Standard r := parser
    refine (maintains_resolve keeps basic owner).bind fun q defined => ?_
    exact keeps.parses q input defined standard
  | lazyOver _ | foreign _ => exact Maintains.raise _
  | splits _ | emit _ => exact basic.elim

/-- A mapping replaces values by standard ones, and nothing else. -/
theorem maintains_mapValues (keeps : KeepsStandard r ev) {mapping input : Value}
    {ds : List Derivation} (function : mapping.Standard r) (unambiguous : Unambiguous r input ds) :
    Maintains (Store.Standard r) (ev.mapValues mapping ds) (Unambiguous r input) := by
  obtain rfl | ⟨d, rfl⟩ := unambiguous.eq_nil_or_eq_singleton
  · exact Maintains.pure .nil
  · have here := unambiguous.standard d List.mem_cons_self
    refine (keeps.calls mapping [d.value] function (by simpa using here.1)).bind fun v value => ?_
    refine Maintains.bind (P := (· = [])) (Maintains.pure rfl) ?_
    rintro _ rfl
    exact Maintains.pure (.one ⟨value, here.2⟩ fun sequence =>
      unambiguous.tail sequence d List.mem_cons_self)

theorem maintains_produce (keeps : KeepsStandard r ev) {p : Parser} {input : Value}
    (parser : p.Standard r) (standard : input.Standard r) :
    Maintains (Store.Standard r) (ev.produce p input) (Unambiguous r input) := by
  refine (maintains_process keeps parser standard).bind fun found unambiguous => ?_
  obtain ⟨shape, mapping, name⟩ := p
  cases mapping with
  | none => exact Maintains.pure unambiguous
  | some f => exact maintains_mapValues keeps parser.2.1 unambiguous

end Evaluator

/-- Evaluations of every depth keep to what is standard. -/
theorem evaluator_keepsStandard (kept : r.Kept) (n : Nat) : (evaluator n).KeepsStandard r := by
  induction n with
  | zero => exact ⟨fun _ _ _ _ => Maintains.throw _, fun _ _ _ _ => Maintains.throw _⟩
  | succ n ih =>
    constructor
    · intro f arguments function all
      refine Evaluator.maintains_apply ih.calls ?_ function all
      intro parameters body scope reached arguments all
      exact kept _ reached arguments all (n + 1)
    · intro p input parser standard
      exact Evaluator.maintains_use Store.Standard.quiet
        (Evaluator.maintains_produce ih parser standard)

/-- What a standard parser leaves of a plain sequence is the sequence from some position on, of the
same kind. -/
theorem parse_leaves_slices (kept : r.Kept) {p : Parser} {input : Value} (parser : p.Standard r)
    (standard : input.Standard r) (sequence : input.IsSequence) {n : Nat} {s t : Store}
    {ds : List Derivation} (store : s.Standard r)
    (success : (evaluator n).parse p input s = .ok ds t) :
    ∀ d ∈ ds, ∃ k length : Nat, input.length t.results = .ok length ∧ k ≤ length ∧
      input.slice t.results (.int k) .none .none = .ok d.remainder ∧
      d.remainder.kindName = input.kindName := by
  have keeps := evaluator_keepsStandard kept n
  have unambiguous := (keeps.parses p input parser standard s ds t store success).2
  intro d member
  have tail := unambiguous.tail sequence d member
  have kind := tail.kindName
  obtain ⟨k, inside, remainder⟩ := tail
  refine ⟨k, input.width, Value.length_of_isSequence sequence _, inside, ?_, kind⟩
  rw [remainder]
  exact Value.slice_natCast sequence _ k

/-- A continuation that consumes one more item. -/
def oneMore : Callback :=
  .closure [⟨"value", .standard, none⟩] (.apply (.make .item) []) []

/-- What refers to no function but `oneMore`. -/
def oneMoreReach : Reach := ⟨(· = oneMore), fun _ => True, fun _ _ _ => True, fun _ => True, []⟩

theorem oneMoreReach_kept : oneMoreReach.Kept := by
  rintro _ rfl arguments all n
  have item : (Value.parser Parser.item).Standard oneMoreReach := Parser.standard_item
  match n with
  | 0 => exact Maintains.throw _
  | 1 =>
    refine Maintains.bind (P := fun _ => True) (Maintains.lift fun _ _ => trivial) fun _ _ => ?_
    exact Maintains.throw _
  | n + 2 =>
    refine Maintains.bind (P := fun _ => True) (Maintains.lift fun _ _ => trivial) fun _ _ => ?_
    exact Maintains.pure item

/-- An item and one more. -/
def twoItems : Parser := Parser.item.bind (.function oneMore) (.bool false)

theorem twoItems_standard : twoItems.Standard oneMoreReach :=
  Parser.standard_bind.mpr ⟨Parser.standard_item, rfl, trivial⟩

theorem started_standard : Store.started.Standard oneMoreReach := by
  have inner : Parser.expression.Standard oneMoreReach := ⟨trivial, trivial, trivial, trivial⟩
  refine ⟨⟨fun address _ d member => ?_, fun _ _ _ => trivial⟩, fun address _ => ?_, ?_, rfl⟩
  · simp [Store.started, Results.read] at member
  · rcases address with _ | address
    · intro defined
      cases defined
    · exact fun _ => trivial
  · rintro (_ | address) _ p defined
    · cases defined
      exact Parser.standard_arithmetic.mpr inner
    · cases defined

/-- What is left of a text after two items. -/
theorem twoItems_leaves_slices :
    (evaluator 5).parse twoItems (.text ['a', 'b', 'c']) Store.started =
      .ok [⟨.text ['b'], .text ['c']⟩] Store.started ∧
    ∃ k length : Nat, (Value.text ['a', 'b', 'c']).length {} = .ok length ∧ k ≤ length ∧
      (Value.text ['a', 'b', 'c']).slice {} (.int k) .none .none = .ok (.text ['c']) ∧
      (Value.text ['c']).kindName = (Value.text ['a', 'b', 'c']).kindName := by
  have success : (evaluator 5).parse twoItems (.text ['a', 'b', 'c']) Store.started =
      .ok [⟨.text ['b'], .text ['c']⟩] Store.started := rfl
  have input : (Value.text ['a', 'b', 'c']).Standard oneMoreReach := trivial
  have sequence : (Value.text ['a', 'b', 'c']).IsSequence := trivial
  exact ⟨success, parse_leaves_slices oneMoreReach_kept twoItems_standard input sequence
    started_standard success ⟨.text ['b'], .text ['c']⟩ List.mem_cons_self⟩

/-- A standard parser has at most one derivation, on inputs of any kind. -/
theorem parse_length_le_one (kept : r.Kept) {p : Parser} {input : Value} (parser : p.Standard r)
    (standard : input.Standard r) {n : Nat} {s t : Store} {ds : List Derivation}
    (store : s.Standard r) (success : (evaluator n).parse p input s = .ok ds t) :
    ds.length ≤ 1 :=
  ((evaluator_keepsStandard kept n).parses p input parser standard s ds t store success).2.single

/-- Two items of a list, where an alternative would have taken one. -/
theorem twoItems_orElse_length_le_one :
    let found : List Derivation := [⟨.int 2, .list [.int 3]⟩]
    (evaluator 6).parse (twoItems.orElse [.parser Parser.item])
        (.list [.int 1, .int 2, .int 3]) Store.started = .ok found Store.started ∧
      found.length ≤ 1 := by
  intro found
  have parser : (twoItems.orElse [.parser Parser.item]).Standard oneMoreReach :=
    Parser.standard_orElse.mpr ⟨twoItems_standard, by simp [Value.Standard]⟩
  have input : (Value.list [.int 1, .int 2, .int 3]).Standard oneMoreReach :=
    (Value.allStandard_iff _).mpr (by simp [Value.Standard])
  have success : (evaluator 6).parse (twoItems.orElse [.parser Parser.item])
      (.list [.int 1, .int 2, .int 3]) Store.started = .ok found Store.started := rfl
  exact ⟨success, parse_length_le_one oneMoreReach_kept parser input started_standard success⟩

end GrammarKit
