import GrammarKit.Proofs.Choices.Attempts

/-! # Choices in choices

If alternatives of a choice are choices themselves, it makes attempts at the leaves of a tree, and
how the leaves are nested is of no importance.
-/

namespace GrammarKit

/-- A way of nesting choices, whose leaves are parsers. -/
inductive ChoiceTree where
  | leaf (p : Parser)
  | zero
  | orElse (first : ChoiceTree) (others : List ChoiceTree)

namespace ChoiceTree

mutual

/-- The parser that is nested like that. -/
def parser : ChoiceTree → Parser
  | leaf p => p
  | zero => Parser.zero
  | orElse first others => (parser first).orElse ((parsers others).map .parser)

/-- The parsers of several trees. -/
def parsers : List ChoiceTree → List Parser
  | [] => []
  | tree :: trees => parser tree :: parsers trees

end

mutual

/-- The leaves, from left to right. What always fails is none. -/
def leaves : ChoiceTree → List Parser
  | leaf p => [p]
  | zero => []
  | orElse first others => leaves first ++ allLeaves others

/-- The leaves of several trees. -/
def allLeaves : List ChoiceTree → List Parser
  | [] => []
  | tree :: trees => leaves tree ++ allLeaves trees

end

theorem parser_orElse (first : ChoiceTree) (others : List ChoiceTree) :
    (orElse first others).parser = .ofShape (.choice (parsers (first :: others))) := by
  have same (ps : List Parser) : (ps.map Value.parser).map Parser.asParser = ps := by
    rw [List.map_map]
    exact List.map_id ps
  rw [parser, Parser.orElse, same, parsers]

section

variable {x : Value}

mutual

/-- A run of nested choices tries the leaves in turn. -/
theorem tries : ∀ (tree : ChoiceTree) {s t : Store} {r : Except Error (List Derivation)},
    (s.debug = true → ∃ ds, r = .ok ds) → tree.parser.Ends x s r t →
      InTurn Store.Logs (fun p => p.Ends x) tree.leaves s r t
  | leaf p, s, t, r, _, ends => .singleton ends Store.Logs.refl
  | zero, s, t, r, told, ends => by
    obtain ⟨n, s', t', before, ran, after⟩ := ends.exists_process rfl rfl told
    cases r with
    | error e => cases ran
    | ok ds =>
      cases ran
      exact inTurn_nil_iff.mpr ⟨rfl, before.trans after⟩
  | orElse first others, s, t, r, told, ends => by
    rw [parser_orElse] at ends
    obtain ⟨n, s', t', before, ran, after⟩ := ends.exists_process rfl rfl told
    have turn := triesAll (first :: others) (fun loud => told (before.debug.symm.trans loud))
      (Evaluator.inTurn_of_firstOf ran)
    rw [allLeaves] at turn
    exact ((turn.sooner after Store.Logs.trans).later before Store.Logs.trans)
termination_by tree => (sizeOf tree, 1)

theorem triesAll : ∀ (trees : List ChoiceTree) {s t : Store}
    {r : Except Error (List Derivation)}, (s.debug = true → ∃ ds, r = .ok ds) →
      InTurn Store.Logs (fun p => p.Ends x) (parsers trees) s r t →
        InTurn Store.Logs (fun p => p.Ends x) (allLeaves trees) s r t
  | [], s, t, r, _, turn => turn
  | tree :: trees, s, t, r, told, turn => by
    rw [parsers] at turn
    rw [allLeaves, inTurn_append_iff Store.Logs.refl Store.Logs.trans]
    obtain ⟨s', u, before, ⟨decides, here, after⟩ | ⟨here, others⟩⟩ := inTurn_cons_iff.mp turn
    · have told' (loud : s'.debug = true) := told (before.debug.symm.trans loud)
      have inside := (tries tree told' here).sooner after Store.Logs.trans
      exact .inl ⟨decides, inside.later before Store.Logs.trans⟩
    · have told' (loud : u.debug = true) :=
        told (before.debug.symm.trans (here.debug.symm.trans loud))
      have failed := tries tree (fun _ => ⟨[], rfl⟩) here
      exact .inr ⟨u, failed.later before Store.Logs.trans, triesAll trees told' others⟩
termination_by trees => (sizeOf trees, 0)

end

variable {b c : Effects} {shown : List Value}

mutual

/-- Nested choices can be shown where their leaves can. -/
theorem shows : ∀ tree : ChoiceTree, (∀ p ∈ tree.leaves, b.Shows p.toValue) →
    b.Shows tree.parser.toValue
  | leaf p, all => all p List.mem_cons_self
  | zero, _ => .of_parts Value.shownBy_zero (List.forall_mem_nil _)
  | orElse first others, all => by
    rw [parser_orElse]
    exact .of_parts (Value.shownBy_choice _) (showsAll (first :: others) all)

theorem showsAll : ∀ trees : List ChoiceTree, (∀ p ∈ allLeaves trees, b.Shows p.toValue) →
    ∀ v ∈ (parsers trees).map Parser.toValue, b.Shows v
  | [], _ => List.forall_mem_nil _
  | tree :: trees, all => by
    obtain ⟨here, others⟩ := List.forall_mem_append.mp all
    exact List.forall_mem_cons.mpr ⟨shows tree here, showsAll trees others⟩

end

/-- An attempt at a parser that leads from effects to others, in which some values can be shown. -/
def Attempt (x : Value) (shown : List Value) (p : Parser) (b : Effects)
    (r : Except Error (List Derivation)) (c : Effects) : Prop :=
  b.YieldsInto c p x r ∧ ∀ v ∈ shown, c.Shows v

/-- Attempts do not change what can be shown. -/
theorem shows_of_inTurn {ps : List Parser} {r : Except Error (List Derivation)}
    (start : ∀ v ∈ shown, b.Shows v) (turn : InTurn Eq (Attempt x shown) ps b r c) :
    c.debug = b.debug ∧ ∀ v ∈ shown, c.Shows v := by
  refine turn.preserves (I := fun c => c.debug = b.debug ∧ ∀ v ∈ shown, c.Shows v) ?_ ?_
    ⟨rfl, start⟩
  · rintro _ _ kept rfl
    exact kept
  · rintro p - c r d ⟨kept, -⟩ ⟨here, all⟩
    exact ⟨here.debug.trans kept, all⟩

mutual

/-- Nested choices come to what trying their leaves in turn comes to. -/
theorem yieldsInto : ∀ (tree : ChoiceTree) {b c : Effects} {r : Except Error (List Derivation)},
    (∀ v ∈ x :: tree.leaves.map Parser.toValue, v ∈ shown) → (∀ v ∈ shown, b.Shows v) →
      InTurn Eq (Attempt x shown) tree.leaves b r c → b.YieldsInto c tree.parser x r
  | leaf p, b, c, r, _, _, turn => by
    obtain ⟨_, u, rfl, ⟨-, here, rfl⟩ | ⟨here, others⟩⟩ := inTurn_cons_iff.mp turn
    · exact here.1
    · obtain ⟨rfl, rfl⟩ := inTurn_nil_iff.mp others
      exact here.1
  | zero, b, c, r, listed, start, turn => by
    obtain ⟨rfl, rfl⟩ := inTurn_nil_iff.mp turn
    have read := start x (listed x List.mem_cons_self)
    have nothing := Effects.yields_zero read
    exact ⟨rfl, nothing.shown, nothing.shown, read, .of_settles nothing.settles⟩
  | orElse first others, b, c, r, listed, start, turn => by
    obtain ⟨read, inside⟩ := List.forall_mem_cons.mp listed
    have all {d : Effects} (kept : ∀ v ∈ shown, d.Shows v) (p : Parser)
        (member : p ∈ (orElse first others).leaves) : d.Shows p.toValue :=
      kept _ (inside _ (List.mem_map_of_mem member))
    obtain ⟨debug, finish⟩ := shows_of_inTurn start turn
    have leads := Effects.leads_firstOf (inTurn_parsers (first :: others) listed start turn)
    have whole := (orElse first others).shows (all start)
    have whole' := (orElse first others).shows (all finish)
    rw [parser_orElse] at whole whole' ⊢
    exact .of_process debug whole whole' (start x read) rfl rfl leads
termination_by tree => (sizeOf tree, 1)

theorem inTurn_parsers : ∀ (trees : List ChoiceTree) {b c : Effects}
    {r : Except Error (List Derivation)},
    (∀ v ∈ x :: (allLeaves trees).map Parser.toValue, v ∈ shown) → (∀ v ∈ shown, b.Shows v) →
      InTurn Eq (Attempt x shown) (allLeaves trees) b r c →
        InTurn Eq (fun p b r c => b.YieldsInto c p x r) (parsers trees) b r c
  | [], b, c, r, _, _, turn => inTurn_nil_iff.mpr (inTurn_nil_iff.mp turn)
  | tree :: trees, b, c, r, listed, start, turn => by
    obtain ⟨read, inside⟩ := List.forall_mem_cons.mp listed
    rw [allLeaves, List.map_append, List.forall_mem_append] at inside
    have here : ∀ v ∈ x :: tree.leaves.map Parser.toValue, v ∈ shown :=
      List.forall_mem_cons.mpr ⟨read, inside.1⟩
    have later : ∀ v ∈ x :: (allLeaves trees).map Parser.toValue, v ∈ shown :=
      List.forall_mem_cons.mpr ⟨read, inside.2⟩
    rw [allLeaves, inTurn_append_iff (fun _ => rfl) Eq.trans] at turn
    rcases turn with ⟨decides, turn⟩ | ⟨u, turn, others⟩
    · exact .first rfl (yieldsInto tree here start turn) decides rfl
    · exact .next rfl (yieldsInto tree here start turn)
        (inTurn_parsers trees later (shows_of_inTurn start turn).2 others)
termination_by trees => (sizeOf trees, 0)

end

end

end ChoiceTree

/-- Nested choices try their leaves in turn. -/
theorem ChoiceTree.triesInTurn (tree : ChoiceTree) (x : Value) :
    tree.parser.TriesInTurn x tree.leaves (fun p => p.Ends x) (fun p b r c => b.YieldsInto c p x r)
      (x :: tree.leaves.map Parser.toValue) :=
  .of_leads
    (fun _ _ _ _ quiet ends => ⟨ends.debug.trans quiet, ends.yieldsInto quiet⟩)
    tree.tries (tree.yieldsInto fun _ listed => listed)

end GrammarKit
