import GrammarKit.Proofs.Choices.Nesting
import GrammarKit.Proofs.Growth

/-! # Operator tables

An operator table is a tree of choices, whose leaves are its matchers with other values. So it tries
the matchers in turn, as nested choices try their leaves.
-/

namespace GrammarKit

/-! ## Values in the place of others -/

section

open Eval

variable {p : Parser} {x v : Value} {s t : Store} {r : Except Error (List Derivation)}

/-- Derivations of a parser, with a plain value in the place of theirs. -/
theorem Effects.YieldsInto.constant {b c : Effects} (plain : v.IsPlain) (shown : c.Shows v)
    (found : b.YieldsInto c p x r)
    (read : ∀ ds, r = .ok ds → ∀ d ∈ ds, c.Shows d.remainder) :
    b.YieldsInto c (p.step (.constant v)) x (withValues (fun _ => v) <$> r) := by
  cases r with
  | error e => exact found.bind_error
  | ok ds =>
    have joined : List.flatten <$> ds.mapM (fun d => (.ok [⟨v, d.remainder⟩] : Except Error _)) =
        .ok (withValues (fun _ => v) ds) := by
      rw [Except.mapM_ok]
      exact congrArg Except.ok List.map_eq_flatMap.symm
    change b.YieldsInto c _ x (.ok (withValues (fun _ => v) ds))
    rw [← joined]
    refine found.bind fun d member => ?_
    have given : c.Gives (.function (.constant v)) [d.value] (.ok v) :=
      .of_step (fun _ => rfl) (Settles.lift (.ok v))
    exact (settles_continuation rfl given).bind
      (yields_asParser plain shown (read ds rfl d member)).settles

/-- Whether a store is the same but for its trace. -/
def Store.TracedFrom (s t : Store) : Prop := ∃ trace, t = { s with trace := trace }

theorem Store.quiet_tracedFrom (s : Store) : Store.Quiet s.TracedFrom := by
  rintro _ trace ⟨_, rfl⟩
  exact ⟨trace, rfl⟩

theorem maintains_parse_asParser (plain : v.IsPlain) (s : Store) (n : Nat) (rest : Value) :
    Maintains s.TracedFrom ((evaluator n).parse (Parser.asParser v) rest) (· = [⟨v, rest⟩]) := by
  cases n with
  | zero => exact .throw _
  | succ n =>
    refine Evaluator.maintains_use s.quiet_tracedFrom ?_
    cases v with
    | parser _ | missing => exact plain.elim
    | _ => exact .pure rfl

theorem maintains_continueAll_constant (plain : v.IsPlain) (s : Store) (n : Nat)
    (ds : List Derivation) :
    Maintains s.TracedFrom ((evaluator n).continueAll (.function (.constant v)) ds)
      (· = withValues (fun _ => v) ds) := by
  induction ds with
  | nil => exact .pure rfl
  | cons d ds ih =>
    have continued : Maintains s.TracedFrom
        ((evaluator n).continuation (.function (.constant v)) d.value d.remainder)
        (· = Parser.asParser v) := by
      cases n with
      | zero => exact .throw _
      | succ n => exact .pure rfl
    refine continued.bind ?_
    rintro _ rfl
    refine (maintains_parse_asParser plain s n d.remainder).bind ?_
    rintro _ rfl
    refine ih.bind ?_
    rintro _ rfl
    exact .pure rfl

/-- A run with a plain value in the place of others is a run of the parser. -/
theorem Parser.Ends.of_constant (plain : v.IsPlain) (told : s.debug = true → ∃ ds, r = .ok ds)
    (ends : (p.step (.constant v)).Ends x s r t) :
    ∃ s' r' t', s.Logs s' ∧ p.Ends x s' r' t' ∧ t'.Logs t ∧
      r = withValues (fun _ => v) <$> r' := by
  obtain ⟨n, s', t', before, ran, after⟩ := ends.exists_process rfl rfl told
  change ((evaluator n).parse p x >>= _) s' = _ at ran
  cases found : (evaluator n).parse p x s' with
  | error stop u =>
    rw [bind_of_eq_error found] at ran
    cases r with
    | ok ds => cases ran
    | error e =>
      cases ran
      exact ⟨s', .error e, t', before, ⟨n, found⟩, after, rfl⟩
  | ok ds u =>
    have here : p.Ends x s' (.ok ds) u := ⟨n, found⟩
    refine ⟨s', .ok ds, u, before, here, ?_⟩
    cases debug : s.debug with
    | false =>
      obtain rfl := before.quiet debug
      have leads := (here.yieldsInto debug).constant plain (.of_quiet (here.debug.trans debug))
        fun _ _ _ _ => .of_quiet (here.debug.trans debug)
      obtain ⟨rfl, rfl⟩ := ends.unique (.of_yieldsInto (here.debug.trans debug) leads)
      exact ⟨.refl t, rfl⟩
    | true =>
      obtain ⟨es, rfl⟩ := told debug
      have loud : u.debug = true := here.debug.trans (before.debug.trans debug)
      have logs {w : Store} (traced : u.TracedFrom w) : u.Logs w :=
        ⟨traced, fun quiet => by cases quiet.symm.trans loud⟩
      rw [bind_of_eq_ok found] at ran
      cases ds with
      | nil =>
        cases ran
        exact ⟨after, rfl⟩
      | cons d ds =>
        obtain ⟨traced, rfl⟩ :=
          maintains_continueAll_constant plain u n (d :: ds) u _ t' ⟨u.trace, rfl⟩ ran
        exact ⟨(logs traced).trans after, rfl⟩

end

/-! ## Tables as trees -/

namespace Parser

variable {x : Value}

/-- A run of the matcher of an entry, with the value of the entry in the place of those that are
matched. -/
def EndsEntry (x : Value) (entry : Parser × Value) (s : Store)
    (r : Except Error (List Derivation)) (t : Store) : Prop :=
  ∃ s' r' t', s.Logs s' ∧ entry.1.Ends x s' r' t' ∧ t'.Logs t ∧
    r = withValues (fun _ => entry.2) <$> r'

/-- The same of a matcher with whatever effects; what it leaves can be shown. -/
def LeadsEntry (x : Value) (entry : Parser × Value) (b : Effects)
    (r : Except Error (List Derivation)) (c : Effects) : Prop :=
  ∃ r', b.YieldsInto c entry.1 x r' ∧
    (∀ ds, r' = .ok ds → ∀ d ∈ ds, c.Shows d.remainder) ∧
    r = withValues (fun _ => entry.2) <$> r'

/-- What an entry of an operator table is to a choice. -/
def ofEntry (entry : Parser × Value) : Parser := entry.1.step (.constant entry.2)

/-- An operator table as nested choices. -/
def tableOnto (tree : ChoiceTree) (entries : List (Parser × Value)) : ChoiceTree :=
  entries.foldl (fun tree entry => .orElse tree [.leaf (ofEntry entry)]) tree

theorem parser_tableOnto (tree : ChoiceTree) (entries : List (Parser × Value)) :
    (tableOnto tree entries).parser = entries.foldl
      (fun table entry => table.orElse [.parser (entry.1.step (.constant entry.2))])
      tree.parser := by
  induction entries generalizing tree with
  | nil => rfl
  | cons entry entries ih => exact ih _

theorem leaves_tableOnto (tree : ChoiceTree) (entries : List (Parser × Value)) :
    (tableOnto tree entries).leaves = tree.leaves ++ entries.map ofEntry := by
  induction entries generalizing tree with
  | nil => exact (List.append_nil _).symm
  | cons entry entries ih =>
    refine (ih _).trans ?_
    simp only [ChoiceTree.leaves, ChoiceTree.allLeaves, List.append_assoc, List.singleton_append,
      List.map_cons]

/-- An operator table tries its matchers in turn. -/
theorem operations_triesInTurn (x : Value) {entries : List (Parser × Value)}
    (plain : ∀ entry ∈ entries, entry.2.IsPlain) :
    (operations entries).TriesInTurn x entries (EndsEntry x) (LeadsEntry x)
      (x :: entries.map (·.1.toValue) ++ entries.map (·.2)) := by
  have table := (tableOnto .zero entries).triesInTurn x
  rw [parser_tableOnto, leaves_tableOnto] at table
  change (operations entries).TriesInTurn x (entries.map ofEntry) _ _ _ at table
  refine .of_leads ?_ (fun {s t r} told ends => ?_) fun {b c r} start turn => ?_
  · rintro entry s r t quiet ⟨s', r', t', before, here, after, rfl⟩
    obtain rfl := before.quiet quiet
    have quiet' := here.debug.trans quiet
    obtain rfl := after.quiet quiet'
    exact ⟨quiet', r', here.yieldsInto quiet, fun _ _ _ _ => .of_quiet quiet', rfl⟩
  · refine (inTurn_map_iff.mp (table.tries told ends)).transport (I := fun u => u.debug = s.debug)
      id (fun u v kept logs => ⟨logs.debug.trans kept, logs⟩) ?_ rfl
    rintro entry member u r' v last kept here
    refine ⟨here.debug.trans kept, here.of_constant (plain entry member) fun loud => ?_⟩
    rcases last with rfl | rfl
    · exact ⟨[], rfl⟩
    · exact told (kept.symm.trans loud)
  · have listed {d : Effects} (all : ∀ v ∈ x :: entries.map (·.1.toValue) ++ entries.map (·.2),
        d.Shows v) : ∀ v ∈ x :: (entries.map ofEntry).map Parser.toValue, d.Shows v := by
      simp only [List.cons_append, List.forall_mem_cons, List.forall_mem_append,
        List.forall_mem_map] at all ⊢
      refine ⟨all.1, fun entry member => ?_⟩
      exact .of_parts (Value.shownBy_bind entry.1 _ _)
        (List.forall_mem_singleton.mpr (all.2.1 entry member))
    refine table.leads (listed start) (inTurn_map_iff.mpr (turn.transport (I := fun _ => True) id
      (fun _ _ _ same => ⟨trivial, same⟩) ?_ trivial))
    rintro entry member d r' e - - ⟨⟨r'', here, left, rfl⟩, all⟩
    have value : e.Shows entry.2 :=
      all _ (List.mem_append_right _ (List.mem_map_of_mem member))
    exact ⟨trivial, here.constant (plain entry member) value left, listed all⟩

/-- An operator table fails iff all of its matchers do. -/
theorem operations_ends_nil_iff {entries : List (Parser × Value)} {s t : Store}
    (plain : ∀ entry ∈ entries, entry.2.IsPlain) (quiet : s.debug = false) :
    (operations entries).Ends x s (.ok []) t ↔
      AllFail Store.Logs (fun entry => entry.1.Ends x) entries s t := by
  rw [(operations_triesInTurn x plain).ends_iff quiet, ← inTurn_failed_iff]
  have onward (s t : Store) (quiet : s.debug = false) (logs : s.Logs t) :
      t.debug = false ∧ s.Logs t := ⟨logs.debug.trans quiet, logs⟩
  constructor
  · intro turn
    refine turn.transport (I := fun u => u.debug = false) id onward ?_ quiet
    rintro entry member u r v failed quiet ⟨s', r', t', before, here, after, same⟩
    obtain rfl := before.quiet quiet
    have quiet' := here.debug.trans quiet
    obtain rfl := after.quiet quiet'
    obtain rfl : r = .ok [] := failed.elim id id
    obtain rfl : r' = .ok [] := by
      cases r' with
      | error e => cases same
      | ok ds =>
        cases ds with
        | nil => rfl
        | cons d ds => cases same
    exact ⟨quiet', here⟩
  · intro turn
    refine turn.transport (I := fun u => u.debug = false) id onward ?_ quiet
    rintro entry member u r v failed quiet here
    obtain rfl : r = .ok [] := failed.elim id id
    exact ⟨here.debug.trans quiet, u, .ok [], v, .refl u, here, .refl v, rfl⟩

end Parser

/-- The loop that makes an operator table of pairs. -/
theorem Evaluator.makeOperations_tuples (table : Parser) (entries : List (Parser × Value))
    (s : Store) :
    makeOperations table (entries.map fun entry => .tuple [.parser entry.1, entry.2]) s =
      .ok (entries.foldl (fun table entry =>
        table.orElse [.parser (entry.1.step (.constant entry.2))]) table) s := by
  induction entries generalizing table with
  | nil => rfl
  | cons entry entries ih => exact ih _

/-- However choices are nested, and with what always fails put in anywhere, the leaves are tried
from left to right up to the first one that does not fail, each starting from where the one before
has led to, and what that one comes to, derivations or an error, is what the choice comes to. So
trees with the same leaves come to the same. An operator table made of pairs with plain values tries
its matchers in the same way, and puts the value of the pair in the place of the values of the
derivations; it fails iff all matchers do. -/
theorem choices_are_tried_in_turn (x : Value) :
    (∀ tree : ChoiceTree, tree.parser.TriesInTurn x tree.leaves (fun p => p.Ends x)
      (fun p b r c => b.YieldsInto c p x r) (x :: tree.leaves.map Parser.toValue)) ∧
    (∀ tree tree' : ChoiceTree, tree.leaves = tree'.leaves →
      ∀ (s t : Store) (r : Except Error (List Derivation)), s.debug = false →
        (tree.parser.Ends x s r t ↔ tree'.parser.Ends x s r t)) ∧
    ∀ entries : List (Parser × Value), (∀ entry ∈ entries, entry.2.IsPlain) →
      (∀ (ev : Evaluator) (s : Store),
        ev.make .operations (entries.map fun entry => .tuple [.parser entry.1, entry.2]) s =
          .ok (.parser (.operations entries)) s) ∧
      (Parser.operations entries).TriesInTurn x entries (Parser.EndsEntry x)
        (Parser.LeadsEntry x) (x :: entries.map (·.1.toValue) ++ entries.map (·.2)) ∧
      ∀ s t : Store, s.debug = false → ((Parser.operations entries).Ends x s (.ok []) t ↔
        AllFail Store.Logs (fun entry => entry.1.Ends x) entries s t) := by
  refine ⟨fun tree => tree.triesInTurn x, fun tree tree' same s t r quiet => ?_,
    fun entries plain => ⟨fun ev s => ?_, Parser.operations_triesInTurn x plain,
      fun s t quiet => Parser.operations_ends_nil_iff plain quiet⟩⟩
  · rw [(tree.triesInTurn x).ends_iff quiet, same, (tree'.triesInTurn x).ends_iff quiet]
  · have made := Evaluator.makeOperations_tuples .zero entries s
    exact Eval.bind_of_eq_ok made _

/-! ## A word or a letter -/

namespace Choices

/-- One character or two. -/
def short : Parser := .ofShape (.splits [.int 1, .int 2])

/-- Two ways to nest the same leaves, of which the first one fails on `abc`. -/
def nested : ChoiceTree :=
  .orElse .zero [.orElse (.leaf (.charText ['x'])) [.leaf short], .leaf .item]

def flat : ChoiceTree := .orElse (.leaf (.charText ['x'])) [.leaf short, .leaf .item]

def abc : Value := .text ['a', 'b', 'c']

def splits : List Derivation := [⟨.text ['a'], .text ['b', 'c']⟩, ⟨.text ['a', 'b'], .text ['c']⟩]

theorem ends_charText : (Parser.charText ['x']).Ends abc .initial (.ok []) .initial := ⟨5, rfl⟩

theorem ends_short : short.Ends abc .initial (.ok splits) .initial := ⟨1, rfl⟩

/-- An operator table, the second entry of which matches. -/
def table : List (Parser × Value) := [(.charText ['x'], .int 1), (short, .int 2)]

theorem plain_table : ∀ entry ∈ table, entry.2.IsPlain := by simp [table, Value.IsPlain]

/-- The second leaf decides, the third one is not tried; the second matcher decides, and its value
comes twice; the table without it fails. -/
theorem choices_are_tried_in_turn_abc :
    nested.parser.Ends abc .initial (.ok splits) .initial ∧
    flat.parser.Ends abc .initial (.ok splits) .initial ∧
    InTurn Store.Logs (fun p => p.Ends abc) nested.leaves .initial (.ok splits) .initial ∧
    (Effects.messages .initial).YieldsInto (.messages .initial) nested.parser abc (.ok splits) ∧
    (Parser.operations table).Ends abc .initial
      (.ok [⟨.int 2, .text ['b', 'c']⟩, ⟨.int 2, .text ['c']⟩]) .initial ∧
    (Parser.operations (table.take 1)).Ends abc .initial (.ok []) .initial := by
  obtain ⟨trees, alike, tables⟩ := choices_are_tried_in_turn abc
  have turn : InTurn Store.Logs (fun p => p.Ends abc) nested.leaves .initial (.ok splits)
      .initial :=
    .next (.refl _) ends_charText (.first (.refl _) ends_short (by nofun) (.refl _))
  have ends := (trees nested).ends rfl turn
  refine ⟨ends, (alike nested flat rfl _ _ _ rfl).mp ends, (trees nested).tries nofun ends, ?_, ?_,
    ?_⟩
  · refine (trees nested).leads (fun _ _ => .of_quiet rfl) ?_
    exact .next rfl ⟨ends_charText.yieldsInto rfl, fun _ _ => .of_quiet rfl⟩
      (.first rfl ⟨ends_short.yieldsInto rfl, fun _ _ => .of_quiet rfl⟩ (by nofun) rfl)
  · refine (tables table plain_table).2.1.ends rfl ?_
    exact .next (.refl _) ⟨_, _, _, .refl _, ends_charText, .refl _, rfl⟩
      (.first (.refl _) ⟨_, _, _, .refl _, ends_short, .refl _, rfl⟩ (by nofun) (.refl _))
  · refine ((tables (table.take 1) fun entry member =>
      plain_table entry (List.mem_of_mem_take member)).2.2 _ _ rfl).mpr ?_
    exact .cons (.refl _) ends_charText (.nil (.refl _))

end Choices

end GrammarKit
