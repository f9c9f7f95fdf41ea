import GrammarKit.Evaluation.Interpreter

/-! # Debug messages

While debug messages are recorded, every use of a parser shows the parser and its input, and what
cannot be shown is an error. `Store.Logs` is what the messages do to a store, which is nothing but
to its trace. `Value.ShownBy` tells which other values have to have a text for a value to have one,
where numbers of any size are written out, as they are in messages.
-/

namespace GrammarKit

/-- What a store becomes by messages: the same but for its trace, and the same altogether while no
messages are recorded. -/
structure Store.Logs (s t : Store) : Prop where
  traced : ∃ trace, t = { s with trace := trace }
  quiet : s.debug = false → t = s

namespace Store.Logs

variable {s t : Store}

theorem refl (s : Store) : s.Logs s := ⟨⟨s.trace, rfl⟩, fun _ => rfl⟩

theorem results (logs : s.Logs t) : t.results = s.results := by
  obtain ⟨_, rfl⟩ := logs.traced
  rfl

theorem debug (logs : s.Logs t) : t.debug = s.debug := by
  obtain ⟨_, rfl⟩ := logs.traced
  rfl

theorem cellAt (logs : s.Logs t) (address : Nat) : t.cellAt address = s.cellAt address := by
  obtain ⟨_, rfl⟩ := logs.traced
  rfl

theorem trans {u : Store} (first : s.Logs t) (second : t.Logs u) : s.Logs u := by
  refine ⟨?_, fun quiet => ?_⟩
  · obtain ⟨_, rfl⟩ := first.traced
    obtain ⟨trace, rfl⟩ := second.traced
    exact ⟨trace, rfl⟩
  · obtain rfl := first.quiet quiet
    exact second.quiet quiet

/-- One more message. -/
theorem record (logs : s.Logs t) (debug : s.debug = true) (entry : Answer) :
    s.Logs { t with trace := t.trace.push entry } := by
  obtain ⟨_, rfl⟩ := logs.traced
  refine ⟨⟨_, rfl⟩, fun quiet => ?_⟩
  rw [debug] at quiet
  cases quiet

end Store.Logs

namespace Value

/-- Whether a value has a text if some other values have one. -/
def ShownBy (ws : List Value) (v : Value) : Prop :=
  ∀ (inner : Value → Except Stop (List Char)) (results : Results),
    (∀ w ∈ ws, ∃ text, inner w = .ok text) →
      ∃ text, showWith inner results.unlimited v = .ok text

theorem shownBy_text (cs : List Char) : (text cs).ShownBy [] := fun _ _ _ => ⟨_, rfl⟩

theorem shownBy_bytes (bs : List UInt8) : (bytes bs).ShownBy [] := fun _ _ _ => ⟨_, rfl⟩

theorem shownBy_int (n : Int) : (int n).ShownBy [] := by
  intro _ results _
  have unlimited : results.unlimited.runtime.digits = Option.none := rfl
  rw [showWith, showInt_of_digits_eq_none unlimited]
  exact ⟨_, rfl⟩

theorem shownBy_float (x : Float) : (float x).ShownBy [] := fun _ _ _ => ⟨_, rfl⟩

theorem shownBy_item : Parser.item.toValue.ShownBy [] := fun _ _ _ => ⟨_, rfl⟩

theorem shownBy_function (f : Callback) : (function f).ShownBy [] := by
  intro _ _ _
  cases f <;> exact ⟨_, rfl⟩

/-- Values that all have texts have the list of them. -/
private theorem exists_texts {ws : List Value} {inner : Value → Except Stop (List Char)}
    (texts : ∀ w ∈ ws, ∃ text, inner w = .ok text) : ∃ all, ws.mapM inner = .ok all := by
  induction ws with
  | nil => exact ⟨[], rfl⟩
  | cons w ws ih =>
    obtain ⟨text, shows⟩ := texts w List.mem_cons_self
    obtain ⟨all, others⟩ := ih fun other member => texts other (List.mem_cons_of_mem _ member)
    exact ⟨text :: all, by rw [List.mapM_cons, shows, others]; rfl⟩

theorem shownBy_list (vs : List Value) : (list vs).ShownBy vs := by
  intro inner results texts
  obtain ⟨all, shows⟩ := exists_texts texts
  simp only [showWith, shows]
  exact ⟨_, rfl⟩

theorem shownBy_tuple (vs : List Value) : (tuple vs).ShownBy vs := by
  intro inner results texts
  obtain ⟨all, shows⟩ := exists_texts texts
  simp only [showWith, shows]
  exact ⟨_, rfl⟩

theorem shownBy_zero : Parser.zero.toValue.ShownBy [] := fun _ _ _ => ⟨_, rfl⟩

/-- A name is shown in place of the parser. -/
theorem shownBy_named {shape : Shape} {mapping : Option Value} {cs : List Char}
    (actual : (Parser.node shape mapping (some (.text cs))).isForeign = false) :
    (Parser.node shape mapping (some (.text cs))).toValue.ShownBy [] := by
  cases shape with
  | foreign _ => cases actual
  | _ => exact fun _ _ _ => ⟨_, rfl⟩

theorem shownBy_lazy (address : Nat) : (Parser.ofShape (.lazy address)).toValue.ShownBy [] :=
  fun _ _ _ => ⟨_, rfl⟩

theorem shownBy_result (v : Value) : (Parser.result v).toValue.ShownBy [v] := by
  intro inner results texts
  obtain ⟨text, shows⟩ := texts v List.mem_cons_self
  change ∃ text, showShape inner (.unit v) = .ok text
  cases v with
  | missing => exact ⟨_, rfl⟩
  | _ =>
    simp only [showShape, shows]
    exact ⟨_, rfl⟩

theorem shownBy_negate (p : Parser) : p.negate.toValue.ShownBy [p.toValue] := by
  intro inner results texts
  obtain ⟨text, shows⟩ := texts p.toValue List.mem_cons_self
  change ∃ text, showShape inner (.negation p) = .ok text
  simp only [showShape, shows]
  exact ⟨_, rfl⟩

theorem shownBy_bind (p : Parser) (next always : Value) :
    (p.bind next always).toValue.ShownBy [p.toValue] := by
  intro inner results texts
  obtain ⟨text, shows⟩ := texts p.toValue List.mem_cons_self
  change ∃ text, showShape inner (.bind p next always) = .ok text
  simp only [showShape, shows]
  exact ⟨_, rfl⟩

theorem shownBy_many (p : Parser) (accumulate : Value) :
    (Parser.ofShape (.many p accumulate)).toValue.ShownBy [p.toValue] := by
  intro inner results texts
  obtain ⟨text, shows⟩ := texts p.toValue List.mem_cons_self
  change ∃ text, showShape inner (.many p accumulate) = .ok text
  simp only [showShape, shows]
  exact ⟨_, rfl⟩

/-- A choice is shown by its alternatives. -/
theorem shownBy_choice (ps : List Parser) :
    (Parser.ofShape (.choice ps)).toValue.ShownBy (ps.map Parser.toValue) := by
  intro inner results texts
  obtain ⟨all, shows⟩ := exists_texts texts
  rw [List.mapM_map] at shows
  change ps.mapM (fun p => inner p.toValue) = .ok all at shows
  change ∃ text, showShape inner (.choice ps) = .ok text
  simp only [showShape, shows]
  exact ⟨_, rfl⟩

/-- An alternative is shown by the two parsers. -/
theorem shownBy_orElse (p : Parser) (v : Value) :
    (p.orElse [v]).toValue.ShownBy [p.toValue, (Parser.asParser v).toValue] :=
  shownBy_choice [p, Parser.asParser v]

end Value

end GrammarKit
