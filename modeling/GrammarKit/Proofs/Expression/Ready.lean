import GrammarKit.Proofs.Effects.Hosting
import GrammarKit.Proofs.Expression.Parsers

/-! # The first use of the grammar

The grammar of expressions waits to be made until its parser is first used. It is then made for the
copy of the parser that is used, which is what stands in parentheses from there on, and kept for all
copies. A copy may map what it yields, and so may every expression in parentheses after such a first
use. As long as the copy that is used first maps nothing, expressions are sums, no matter who uses
them first.
-/

namespace GrammarKit.Expression

open Effects

/-- Whether a parser is a copy of the parser of expressions that maps nothing. Its name is a text,
if it has one. -/
inductive IsCopy : Parser → Prop where
  | unnamed : IsCopy Parser.expression
  | named (cs : List Char) :
    IsCopy (.node (.lazy Parser.expressionCell) none (some (.text cs)))

/-- Whether `inner`, a copy of the parser of expressions, is what stands in parentheses: the grammar
has been made for it, or is still to be made, for the parser itself. -/
structure Stands (s : Store) (inner : Parser) : Prop where
  shape : inner.shape = .lazy Parser.expressionCell
  held : (s.cellAt Parser.expressionCell = ⟨some Parser.arithmeticFactory, none⟩ ∧
      inner = Parser.expression) ∨
    (s.cellAt Parser.expressionCell).definition = some (Parser.arithmetic inner)

/-- Whether what stands in parentheses maps nothing. -/
structure Ready (s : Store) (inner : Parser) : Prop extends Stands s inner where
  copy : IsCopy inner

/-- Messages, and that the grammar is made, as the only effects. -/
def making (s : Store) (inner : Parser) : Effects :=
  .hosting s Parser.expressionCell (Parser.arithmetic inner)

variable {s t : Store} {inner : Parser} {x : Value} {r : Except Error (List Derivation)}

theorem start_making (s : Store) (inner : Parser) : (making s inner).start s :=
  ⟨s.trace, s.history, .inl rfl⟩

theorem ready_initial (runtime : Runtime) :
    Ready (Store.initial.under runtime) Parser.expression :=
  ⟨⟨rfl, .inl ⟨rfl, rfl⟩⟩, .unnamed⟩

theorem ready_started (runtime : Runtime) :
    Ready (Store.started.under runtime) Parser.expression :=
  ⟨⟨rfl, .inr rfl⟩, .unnamed⟩

theorem IsCopy.shape (copy : IsCopy inner) : inner.shape = .lazy Parser.expressionCell := by
  cases copy <;> rfl

theorem IsCopy.mapping (copy : IsCopy inner) : inner.mapping = none := by
  cases copy <;> rfl

theorem IsCopy.shows {b : Effects} (copy : IsCopy inner) : b.Shows inner.toValue := by
  cases copy with
  | unnamed => exact .of_parts (Value.shownBy_lazy _) (List.forall_mem_nil _)
  | named cs => exact .of_parts (Value.shownBy_named rfl) (List.forall_mem_nil _)

/-- The function that makes the grammar makes it for what it is given. -/
theorem call_arithmeticFactory (owner : Parser) (n : Nat) (s : Store) :
    (evaluator (n + 12)).call Parser.arithmeticFactory [.parser owner] s =
      .ok (.parser (Parser.arithmetic owner)) s := rfl

/-- The first use makes the grammar for the copy that is used, whatever it maps, and from then on
this copy is what stands in parentheses. -/
theorem stands_of_first_use (waiting : s.cellAt Parser.expressionCell =
      ⟨some Parser.arithmeticFactory, none⟩) (quiet : s.debug = false)
    (copy : inner.shape = .lazy Parser.expressionCell) (n : Nat) :
    ∃ t, (evaluator (n + 12)).resolve Parser.expressionCell (.parser inner) s =
        .ok (Parser.arithmetic inner) t ∧ Stands t inner := by
  have returned := call_arithmeticFactory inner n (s.note Parser.expressionCell .called)
  have resolved := Evaluator.resolve_of_returned waiting returned
  rw [Evaluator.logResolved_apply, Store.debug_settle] at resolved
  refine ⟨_, resolved.trans (if_neg (Bool.eq_false_iff.mp quiet)), copy, .inr ?_⟩
  have inside : Parser.expressionCell < s.cells.size := Store.lt_size_of_factory (by rw [waiting])
  rw [Store.cellAt_settle, if_pos ⟨rfl, inside⟩]
  rfl

/-- A first use of a copy that maps nothing is as good as one of the parser itself. -/
theorem ready_of_first_use (waiting : s.cellAt Parser.expressionCell =
      ⟨some Parser.arithmeticFactory, none⟩) (quiet : s.debug = false) (copy : IsCopy inner)
    (n : Nat) : ∃ t, (evaluator (n + 12)).resolve Parser.expressionCell (.parser inner) s =
      .ok (Parser.arithmetic inner) t ∧ Ready t inner := by
  obtain ⟨t, made, stands⟩ := stands_of_first_use waiting quiet copy.shape n
  exact ⟨t, made, stands, copy⟩

/-- A grammar that still waits to be made has waited from the start. -/
theorem waiting_of_start {cell : Cell} (start : (making s inner).start t)
    (waiting : t.cellAt Parser.expressionCell = cell) (undefined : cell.definition = none) :
    s.cellAt Parser.expressionCell = cell := by
  obtain ⟨_, _, rfl | rfl⟩ := start
  · exact waiting
  · change (s.settle _ _).cellAt _ = _ at waiting
    rw [Store.cellAt_settle] at waiting
    split at waiting
    · rw [← waiting] at undefined
      cases undefined
    · exact waiting

namespace Stands

theorem hosts (stands : Stands s inner) : (making s inner).Hosts Parser.expressionCell
    Parser.arithmeticFactory (Parser.arithmetic inner) :=
  hosts_hosting (stands.held.imp_left And.left)

/-- Evaluations that make the grammar keep what stands in parentheses. -/
theorem of_start (stands : Stands s inner) (start : (making s inner).start t) :
    Stands t inner := by
  refine ⟨stands.shape, ?_⟩
  rcases stands.hosts.held t start with waiting | defined
  · rcases stands.held with ⟨-, first⟩ | defined
    · exact .inl ⟨waiting, first⟩
    · rw [waiting_of_start start waiting rfl] at defined
      cases defined
  · exact .inr defined

/-- What stands in parentheses comes to the grammar. -/
theorem resolves_inner (stands : Stands s inner) (shown : (making s inner).Shows inner.toValue) :
    (making s inner).Settles (fun ev => ev.resolve Parser.expressionCell (.parser inner))
      (.ok (Parser.arithmetic inner)) := by
  have own : inner.toValue = .parser inner := by
    obtain ⟨shape, _, _⟩ := inner
    obtain rfl : shape = .lazy _ := stands.shape
    rfl
  exact stands.hosts.settles_resolve (own ▸ shown) rfl fun _ _ _ => call_arithmeticFactory inner

/-- So does the parser of expressions, which makes it for nobody else. -/
theorem resolves (stands : Stands s inner) : (making s inner).Settles
    (fun ev => ev.resolve Parser.expressionCell (.parser Parser.expression))
      (.ok (Parser.arithmetic inner)) := by
  have returns (t : Store) (start : (making s inner).start t)
      (waiting : t.cellAt Parser.expressionCell = ⟨some Parser.arithmeticFactory, none⟩) (n : Nat)
      (u : Store) : (evaluator (n + 12)).call Parser.arithmeticFactory
        [.parser Parser.expression] u = .ok (.parser (Parser.arithmetic inner)) u := by
    rcases (stands.of_start start).held with ⟨-, rfl⟩ | defined
    · exact call_arithmeticFactory Parser.expression n u
    · rw [waiting] at defined
      cases defined
  exact stands.hosts.settles_resolve IsCopy.unnamed.shows rfl returns

end Stands

namespace Ready

/-- What stands in parentheses is read as sums are. -/
theorem recurs (ready : Ready s inner) : Recurs (making s inner) inner :=
  fun _ _ sum => yields_copy ready.shape ready.copy.mapping ready.copy.shows
    (ready.resolves_inner ready.copy.shows) sum

/-- An expression is a sum. -/
theorem yields_expression (ready : Ready s inner)
    (sum : (making s inner).Yields (Level.sum.parser inner) x r) :
    (making s inner).Yields Parser.expression x r :=
  yields_copy rfl rfl IsCopy.unnamed.shows ready.resolves sum

end Ready

end GrammarKit.Expression
