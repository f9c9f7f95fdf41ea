import GrammarKit.Proofs.Effects.Yields
import GrammarKit.Proofs.Store

/-! # Lazy parsers among the effects

The first use of a lazy parser calls its factory and keeps what that returns, so it changes the
store for good. Effects that host the cell of a lazy parser include this change: wherever an
evaluation starts, the cell either has its definition or waits for it to be made. What the lazy
parser yields is then what the definition yields, no matter who uses it first.
-/

namespace GrammarKit

/-- What a definition does to a store is the same whatever was traced and noted before. -/
theorem Store.settle_traced (s : Store) (trace trace' : Array Answer)
    (history history' : Array (Nat × CellEvent)) (address : Nat) (q : Parser) :
    { ({ s with trace := trace, history := history } : Store).settle address q with
      trace := trace', history := history' } =
    { s.settle address q with trace := trace', history := history' } := by
  unfold settle note
  dsimp only
  split <;> rfl

namespace Effects

/-- Whether a lazy parser has its definition wherever evaluations start, or waits for its factory
to make it, which is one of the effects that evaluations may have. -/
structure Hosts (b : Effects) (address : Nat) (factory : Value) (definition : Parser) : Prop where
  held : ∀ s, b.start s →
    s.cellAt address = ⟨some factory, none⟩ ∨ (s.cellAt address).definition = some definition
  makes : ∀ s trace history, b.start s → s.cellAt address = ⟨some factory, none⟩ →
    b.leave s { s.settle address definition with trace := trace, history := history }

variable {b : Effects} {address : Nat} {factory owner x : Value} {q : Parser}
  {r : Except Error (List Derivation)}

/-- That the factory has returned the definition, and it has been kept, is among the effects,
whatever is traced and noted besides. -/
theorem Hosts.leave_returned (hosts : b.Hosts address factory q) {s : Store} (start : b.start s)
    (waiting : s.cellAt address = ⟨some factory, none⟩) (trace : Array Answer)
    (history : Array (Nat × CellEvent)) :
    b.leave s { ((s.note address .called).note address .returned).settle address q with
      trace := trace, history := history } := by
  have same := s.settle_traced s.trace trace
    ((s.note address .called).note address .returned).history history address q
  change { ((s.note address .called).note address .returned).settle address q with
    trace := trace, history := history } = _ at same
  rw [same]
  exact hosts.makes s trace history start waiting

/-- A lazy parser comes to its definition, as long as the factory, where it is still to be called,
returns just that. -/
theorem Hosts.settles_resolve (hosts : b.Hosts address factory q) (shown : b.Shows owner)
    (unary : factory.arity 1 = 1) {depth : Nat}
    (returns : ∀ s, b.start s → s.cellAt address = ⟨some factory, none⟩ →
      ∀ n t, (evaluator (n + depth)).call factory [owner] t = .ok (.parser q) t) :
    b.Settles (fun ev => ev.resolve address owner) (.ok q) := by
  obtain ⟨depth', texts⟩ := shown.texts
  refine ⟨max depth depth', fun n deep s start => ?_⟩
  rcases hosts.held s start with waiting | defined
  · obtain ⟨k, rfl⟩ : ∃ k, n = k + depth := ⟨n - depth, by omega⟩
    have returned := returns s start waiting k (s.note address .called)
    rw [show [owner] = [owner].take (factory.arity 1) by rw [unary]; rfl] at returned
    have resolved := Evaluator.resolve_of_returned waiting returned
    rw [Evaluator.logResolved_apply, Parser.asParser] at resolved
    have leave := hosts.leave_returned start waiting
    have debug := ((s.note address .called).note address .returned).debug_settle address q
    have results := ((s.note address .called).note address .returned).results_settle address q
    generalize ((s.note address .called).note address .returned).settle address q = t
      at resolved debug results leave
    change ∃ u, b.leave s u ∧ (evaluator (k + depth)).resolve address owner s = _
    rw [resolved]
    split
    · next told =>
      obtain ⟨text, shows⟩ := texts (k + depth) (by omega) s start (debug ▸ told)
      rw [← show t.results = s.results from results] at shows
      rw [shows]
      exact ⟨_, leave _ _, rfl⟩
    · exact ⟨t, leave t.trace t.history, rfl⟩
  · exact ⟨s, b.refl s start, Evaluator.resolve_of_defined defined _ _⟩

/-- A copy of a lazy parser that maps nothing yields what the parser that it comes to yields. -/
theorem yields_copy {p : Parser} (lazy : p.shape = .lazy address) (unmapped : p.mapping = none)
    (shown : b.Shows p.toValue)
    (resolves : b.Settles (fun ev => ev.resolve address (.parser p)) (.ok q))
    (body : b.Yields q x r) : b.Yields p x r := by
  obtain ⟨_, _, name⟩ := p
  cases lazy
  cases unmapped
  exact .of_process shown body.read rfl rfl (resolves.bind body.settles)

/-- A lazy parser yields what its definition yields. -/
theorem Hosts.yields_lazy (hosts : b.Hosts address factory q) (unary : factory.arity 1 = 1)
    {depth : Nat} (returns : ∀ n s, (evaluator (n + depth)).call factory
      [.parser (.ofShape (.lazy address))] s = .ok (.parser q) s)
    (body : b.Yields q x r) : b.Yields (.ofShape (.lazy address)) x r :=
  have shown : b.Shows (.parser (.ofShape (.lazy address))) :=
    .of_parts (Value.shownBy_lazy address) (List.forall_mem_nil _)
  yields_copy rfl rfl shown (hosts.settles_resolve shown unary fun _ _ _ => returns) body

end Effects

/-- Whether `t` is `s` but for what is traced and noted, or has the definition of one cell
besides. -/
def Store.Hosted (s : Store) (address : Nat) (definition : Parser) (t : Store) : Prop :=
  ∃ trace history, t = { s with trace := trace, history := history } ∨
    t = { s.settle address definition with trace := trace, history := history }

/-- Messages and the definition of one lazy parser as the only effects. -/
def Effects.hosting (s : Store) (address : Nat) (definition : Parser) : Effects where
  start := s.Hosted address definition
  leave _ t := s.Hosted address definition t
  debug := s.debug
  runtime := s.results.runtime
  told := by
    rintro _ ⟨_, _, rfl | rfl⟩
    · rfl
    · exact s.debug_settle address definition
  ran := by
    rintro _ ⟨_, _, rfl | rfl⟩
    · rfl
    · exact congrArg Results.runtime (s.results_settle address definition)
  refl _ hosted := hosted
  trans _ _ _ _ hosted := hosted
  kept _ _ _ hosted := hosted
  record := by
    rintro _ entry ⟨_, _, rfl | rfl⟩ _
    · exact ⟨_, _, .inl rfl⟩
    · exact ⟨_, _, .inr rfl⟩

/-- A cell that waits for its definition, or has it, is hosted. -/
theorem Effects.hosts_hosting {s : Store} {address : Nat} {factory : Value} {definition : Parser}
    (held : s.cellAt address = ⟨some factory, none⟩ ∨
      (s.cellAt address).definition = some definition) :
    (Effects.hosting s address definition).Hosts address factory definition := by
  have defined : ((s.settle address definition).cellAt address).definition = some definition := by
    rw [Store.cellAt_settle]
    split
    · rfl
    · next outside =>
      rcases held with waiting | defined
      · exact absurd ⟨rfl, Store.lt_size_of_factory (by rw [waiting])⟩ outside
      · exact defined
  constructor
  · rintro _ ⟨_, _, rfl | rfl⟩
    · exact held
    · exact .inr defined
  · rintro _ trace history ⟨_, _, rfl | rfl⟩ still
    · rw [Store.settle_traced]
      exact ⟨trace, history, .inr rfl⟩
    · change (s.settle address definition).cellAt address = _ at still
      rw [still] at defined
      cases defined

end GrammarKit
