import GrammarKit.Proofs.Effects.Yields

/-! # Parsers without alternatives

The rules for sequences and choices of parsers that have one derivation at most: what a parser
comes to is what its part after the only derivation does, or the error that ends it.
-/

namespace GrammarKit.Effects

variable {b : Effects} {p : Parser} {x v : Value} {r : Except Error (List Derivation)}
  {ds : List Derivation} {d : Derivation} {e : Error}

theorem yields_item_nil : b.Yields .item (.text []) (.ok []) :=
  .of_process (.of_parts Value.shownBy_item (List.forall_mem_nil _)) (shows_text []) rfl rfl
    ((Settles.lift (.ok [])).congr fun _ _ _ => rfl)

theorem yields_item_cons (c : Char) (cs : List Char) :
    b.Yields .item (.text (c :: cs)) (.ok [⟨.text [c], .text cs⟩]) :=
  .of_process (.of_parts Value.shownBy_item (List.forall_mem_nil _)) (shows_text _) rfl rfl
    ((Settles.lift (.ok _)).congr fun _ _ _ => rfl)

/-- Sequencing: the continuation is evaluated after each derivation, in order. -/
theorem produces_bind {ι : Type} {next : Value} (found : ι → Derivation) (is : List ι)
    (after : ι → Except Error (List Derivation)) (first : b.Yields p x (.ok (is.map found)))
    (continues : ∀ i ∈ is, b.Settles (fun ev =>
      ev.continuation next (found i).value (found i).remainder >>= (ev.parse · (found i).remainder))
      (after i)) :
    b.Produces (p.bind next (.bool false)) x (List.flatten <$> is.mapM after) :=
  .of_process (shows_bind first.shown _ _) first.read rfl rfl
    (settles_bind found is first.settles continues)

theorem produces_bind_nil {next : Value} (first : b.Yields p x (.ok [])) :
    b.Produces (p.bind next (.bool false)) x (.ok []) :=
  produces_bind id [] (fun _ => .ok []) first (List.forall_mem_nil _)

theorem produces_bind_error {next : Value} (first : b.Yields p x (.error e)) :
    b.Produces (p.bind next (.bool false)) x (.error e) :=
  .of_process (shows_bind first.shown _ _) first.read rfl rfl first.settles.error_bind

/-- Sequencing after the only derivation. -/
theorem produces_bind_only {next rest : Value} (first : b.Yields p x (.ok [⟨v, rest⟩]))
    (continues : b.Settles (fun ev => ev.continuation next v rest >>= (ev.parse · rest)) r) :
    b.Produces (p.bind next (.bool false)) x r := by
  have same : List.flatten <$> [(⟨v, rest⟩ : Derivation)].mapM (fun _ => r) = r := by
    cases r with
    | ok found => exact congrArg Except.ok (List.append_nil found)
    | error e => rfl
  rw [← same]
  exact produces_bind id [⟨v, rest⟩] (fun _ => r) first (List.forall_mem_singleton.mpr continues)

/-! ## Sequencing with a step of the library -/

variable {f : Callback} {rest : Value}

theorem produces_step_nil (first : b.Yields p x (.ok [])) : b.Produces (p.step f) x (.ok []) :=
  produces_bind_nil first

theorem produces_step_error (first : b.Yields p x (.error e)) :
    b.Produces (p.step f) x (.error e) :=
  produces_bind_error first

/-- After the only derivation: what the step gives for its value, evaluated on the remainder. -/
theorem produces_step (unary : (Value.function f).arity 2 = 1) {w : Value}
    (first : b.Yields p x (.ok [⟨v, rest⟩])) (given : b.Gives (.function f) [v] (.ok w))
    (second : b.Yields (Parser.asParser w) rest r) : b.Produces (p.step f) x r :=
  produces_bind_only first ((settles_continuation unary given).bind second.settles)

/-- An error of the step is one of the sequence. -/
theorem produces_step_given_error (unary : (Value.function f).arity 2 = 1)
    (first : b.Yields p x (.ok [⟨v, rest⟩])) (given : b.Gives (.function f) [v] (.error e)) :
    b.Produces (p.step f) x (.error e) :=
  produces_bind_only first (settles_continuation unary given).error_bind

/-! ## Ordered choice -/

theorem produces_orElse_left (first : b.Yields p x (.ok (d :: ds)))
    (other : b.Shows (Parser.asParser v).toValue) : b.Produces (p.orElse [v]) x (.ok (d :: ds)) :=
  .of_process (shows_orElse first.shown other) first.read rfl rfl
    (settles_orElse_left first.settles)

theorem produces_orElse_error (first : b.Yields p x (.error e))
    (other : b.Shows (Parser.asParser v).toValue) : b.Produces (p.orElse [v]) x (.error e) :=
  .of_process (shows_orElse first.shown other) first.read rfl rfl first.settles.error_bind

/-- Where a parser fails, the only alternative to it decides. -/
theorem produces_orElse_right (first : b.Yields p x (.ok []))
    (second : b.Yields (Parser.asParser v) x r) : b.Produces (p.orElse [v]) x r :=
  .of_process (shows_orElse first.shown second.shown) first.read rfl rfl
    (settles_orElse_right first.settles second.settles)

end GrammarKit.Effects
