import Mathlib.Data.Fintype.Card
import Mathlib.Data.Fintype.EquivFin
import GrammarKit.Proofs.Comparison.Sound
import GrammarKit.Proofs.Deep
import GrammarKit.Proofs.Parts

/-! # Values that have a text

Result lists can be appended to, and so one may come to hold itself, in which case nothing is deep
enough to show it. As long as none does, every value has a text: result lists are finite in number,
and between two of them only parts of values are passed, which become smaller.
-/

namespace GrammarKit

open Relation (TransGen ReflTransGen)

namespace Results

/-- Whether no result list can be reached from itself. -/
def Acyclic (results : Results) : Prop :=
  ∀ address, ¬TransGen results.IsPart (.result address) (.result address)

variable {results later : Results}

/-- Parts stay parts when result lists grow. -/
theorem IsPart.mono (le : results.Le later) {v w : Value} (part : results.IsPart v w) :
    later.IsPart v w := by
  cases w with
  | result address =>
    obtain ⟨d, member, here⟩ := List.mem_flatMap.mp part
    exact List.mem_flatMap.mpr ⟨d, (le.read address).subset member, here⟩
  | _ => exact part

/-- A cycle stays one. -/
theorem Acyclic.of_le (le : results.Le later) (acyclic : later.Acyclic) : results.Acyclic :=
  fun address cycle => acyclic address (TransGen.mono (fun _ _ => IsPart.mono le) _ _ cycle)

/-- Result lists that hold nothing but values without parts are in no cycle. -/
theorem Acyclic.of_flat (flat : ∀ address, ∀ d ∈ results.read address,
    d.value.parts results = [] ∧ d.remainder.parts results = []) : results.Acyclic := by
  intro address cycle
  obtain ⟨v, reached, part⟩ := TransGen.tail'_iff.mp cycle
  obtain ⟨d, member, here⟩ := List.mem_flatMap.mp part
  have none (w : Value) : ¬results.IsPart w v := by
    unfold IsPart
    rcases List.mem_pair.mp here with rfl | rfl
    · exact (flat address d member).1 ▸ List.not_mem_nil
    · exact (flat address d member).2 ▸ List.not_mem_nil
  rcases ReflTransGen.cases_tail reached with rfl | ⟨w, -, last⟩
  · exact none _ part
  · exact none w last

/-- Result lists are reached from one another in a well-founded way. -/
theorem Acyclic.wellFounded (acyclic : results.Acyclic) : WellFounded fun a b : Fin results.size =>
    TransGen results.IsPart (.result a) (.result b) := by
  have : IsTrans (Fin results.size) fun a b => TransGen results.IsPart (.result a) (.result b) :=
    ⟨fun _ _ _ => TransGen.trans⟩
  have : Std.Irrefl fun a b : Fin results.size =>
      TransGen results.IsPart (.result a) (.result b) := ⟨fun a => acyclic a⟩
  exact Finite.wellFounded_of_trans_of_irrefl _

end Results

theorem Parser.sizeOf_toValue_le (p : Parser) : sizeOf p.toValue ≤ 1 + sizeOf p := by
  obtain ⟨shape, mapping, name⟩ := p
  cases shape with
  | foreign v =>
    simp only [toValue, node.sizeOf_spec, Shape.foreign.sizeOf_spec]
    omega
  | _ => exact Nat.le_refl _

/-- The parts of a shape are smaller than a parser of that shape. -/
theorem Shape.sizeOf_lt_of_mem_parts {shape : Shape} {v : Value} (part : v ∈ shape.parts) :
    sizeOf v < 2 + sizeOf shape := by
  cases shape with
  | unit w | foreign w =>
    obtain rfl := List.mem_singleton.mp part
    simp only [unit.sizeOf_spec, foreign.sizeOf_spec]
    omega
  | negation p | bind p _ _ | many p _ =>
    obtain rfl := List.mem_singleton.mp part
    have := p.sizeOf_toValue_le
    simp only [negation.sizeOf_spec, bind.sizeOf_spec, many.sizeOf_spec]
    omega
  | choice ps =>
    obtain ⟨p, member, rfl⟩ := List.mem_map.mp part
    have := p.sizeOf_toValue_le
    have := List.sizeOf_lt_of_mem member
    simp only [choice.sizeOf_spec]
    omega
  | _ => cases part

namespace Results

variable {results : Results}

/-- Parts are smaller, but for those of result lists. -/
theorem IsPart.sizeOf_lt {v w : Value} (part : results.IsPart v w)
    (other : ∀ address, w ≠ .result address) : sizeOf v < sizeOf w := by
  cases w with
  | list vs | tuple vs =>
    have : sizeOf v < sizeOf vs := List.sizeOf_lt_of_mem part
    simp only [Value.list.sizeOf_spec, Value.tuple.sizeOf_spec]
    omega
  | derivation u r =>
    simp only [Value.derivation.sizeOf_spec]
    rcases List.mem_pair.mp part with rfl | rfl <;> omega
  | parser p =>
    obtain ⟨shape, mapping, name⟩ := p
    have := Shape.sizeOf_lt_of_mem_parts part
    simp only [Value.parser.sizeOf_spec, Parser.node.sizeOf_spec, Parser.shape] at this ⊢
    omega
  | result address => exact absurd rfl (other address)
  | _ => cases part

/-- There is an end to the parts of a value if there is one to those of the result lists in it. -/
theorem acc_of_results {v : Value}
    (all : ∀ address, ReflTransGen results.IsPart (.result address) v →
      Acc results.IsPart (.result address)) : Acc results.IsPart v := by
  induction size : sizeOf v using Nat.strongRecOn generalizing v with
  | ind n ih =>
    by_cases result : ∃ address, v = .result address
    · obtain ⟨address, rfl⟩ := result
      exact all address .refl
    · refine ⟨v, fun u part => ih (sizeOf u) ?_ (fun address inside => ?_) rfl⟩
      · exact size ▸ part.sizeOf_lt fun address same => result ⟨address, same⟩
      · exact all address (inside.tail part)

/-- There is an end to the parts of any value. -/
theorem Acyclic.acc (acyclic : results.Acyclic) (v : Value) : Acc results.IsPart v := by
  have beyond {address : Nat} (outside : ¬address < results.size) :
      Acc results.IsPart (.result address) := by
    refine ⟨_, fun u part => ?_⟩
    obtain ⟨d, member, -⟩ := List.mem_flatMap.mp part
    rw [read_eq_nil (Nat.le_of_not_lt outside)] at member
    cases member
  have inside (a : Fin results.size) : Acc results.IsPart (.result a) := by
    induction a using acyclic.wellFounded.induction with
    | h a ih =>
      refine ⟨_, fun u part => acc_of_results fun address reached => ?_⟩
      by_cases bound : address < results.size
      · exact ih ⟨address, bound⟩ (TransGen.tail' reached part)
      · exact beyond bound
  refine acc_of_results fun address _ => ?_
  by_cases bound : address < results.size
  · exact inside ⟨address, bound⟩
  · exact beyond bound

end Results

/-- As long as no result list can be reached from itself, every value has a text from some depth on,
if numbers of any size have one. -/
theorem Value.deep_display_of_acyclic {s : Store} (acyclic : s.results.Acyclic)
    (sound : s.Sound .texts) {v : Value} (within : v.Within (Names.texts.below s.results.size)) :
    Deep fun n => ∃ text, v.display s.results.unlimited n = .ok text := by
  induction acyclic.acc v with
  | intro v _ ih =>
    have parts : Deep fun n => ∀ u ∈ v.parts s.results,
        ∃ text, u.display s.results.unlimited n = .ok text :=
      .forall_mem fun u part => ih u part (within.of_isPart sound.results part)
    refine .of_succ (parts.mono fun n texts => ?_)
    rw [← v.parts_unlimited s.results] at texts
    refine Succeeds.compositional.showWith rfl (fun shape mapping name same => .inl ?_) texts
    exact (same ▸ within).2.2.1

end GrammarKit
