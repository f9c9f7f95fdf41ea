/-! # From some depth on

An evaluator of any depth gives up where it would have to nest deeper. What holds of an evaluation
is what holds of it from some depth on: two such things hold together from the larger of their
depths on, and so do finitely many.
-/

namespace GrammarKit

/-- Whether something is the case from some depth on. -/
def Deep (P : Nat → Prop) : Prop := ∃ depth, ∀ n, depth ≤ n → P n

namespace Deep

variable {P Q R : Nat → Prop}

theorem always (holds : ∀ n, P n) : Deep P := ⟨0, fun n _ => holds n⟩

theorem mono (deep : Deep P) (weaker : ∀ n, P n → Q n) : Deep Q := by
  obtain ⟨depth, holds⟩ := deep
  exact ⟨depth, fun n le => weaker n (holds n le)⟩

theorem both (deep : Deep P) (deep' : Deep Q) (combine : ∀ n, P n → Q n → R n) : Deep R := by
  obtain ⟨depth, holds⟩ := deep
  obtain ⟨depth', holds'⟩ := deep'
  exact ⟨max depth depth', fun n le => combine n (holds n (by omega)) (holds' n (by omega))⟩

/-- The depths after the first one are enough. -/
theorem of_succ (deep : Deep fun n => P (n + 1)) : Deep P := by
  obtain ⟨depth, holds⟩ := deep
  refine ⟨depth + 1, fun n le => ?_⟩
  obtain ⟨n, rfl⟩ : ∃ k, n = k + 1 := ⟨n - 1, by omega⟩
  exact holds n (by omega)

/-- The depths after the first one are deep as well. -/
theorem succ (deep : Deep P) : Deep fun n => P (n + 1) := by
  obtain ⟨depth, holds⟩ := deep
  exact ⟨depth, fun n le => holds (n + 1) (by omega)⟩

/-- One depth is enough for several things. -/
theorem forall_mem {α : Type} {P : α → Nat → Prop} {as : List α} (each : ∀ a ∈ as, Deep (P a)) :
    Deep fun n => ∀ a ∈ as, P a n := by
  induction as with
  | nil => exact .always fun _ => List.forall_mem_nil _
  | cons a as ih =>
    have others := ih fun c member => each c (List.mem_cons_of_mem _ member)
    exact (each a List.mem_cons_self).both others fun n first others =>
      List.forall_mem_cons.mpr ⟨first, others⟩

/-- Depths grow beyond every bound. -/
theorem beyond (k : Nat) : Deep fun n => k ≤ n := ⟨k, fun _ le => le⟩

end Deep

end GrammarKit
