import GrammarKit.Proofs.Cells.Life

/-! # What evaluations do to cells

An evaluation adds to the lives of cells, and leaves the cells whose factories are running alone.
This is so for every change of the store that an evaluation consists of, and for the calls of
factories, between which other evaluations take place.
-/

namespace GrammarKit.Store

variable {excused : Prop} {s t u v : Store} {address : Nat} {f : Value} {p : Parser}

/-- What has become of the cells from one store to another one. While debug messages are recorded,
every definition that a factory makes is told of, unless there is an excuse. -/
structure Kept (excused : Prop) (s t : Store) : Prop where
  lively : t.Lively
  idle : ∀ address, t.Running address → s.Running address
  running : ∀ address, s.Running address →
    t.eventsOf address = s.eventsOf address ∧ t.cellAt address = s.cellAt address
  factory : ∀ address, address < s.cells.size →
    (t.cellAt address).factory = (s.cellAt address).factory
  definition : ∀ address p, (s.cellAt address).definition = some p →
    (t.cellAt address).definition = some p
  told : s.debug = true → ¬excused → ∀ address, CellEvent.Untold (t.eventsOf address) →
    CellEvent.Untold (s.eventsOf address)

/-- Whether an evaluation may lead from one store to another one, as far as cells are concerned:
what became of them is added to, and in an orderly run the cells are kept. -/
structure Tends (excused : Prop) (s t : Store) : Prop where
  history : s.history.toList <+: t.history.toList
  size : s.cells.size ≤ t.cells.size
  debug : t.debug = s.debug
  kept : t.Orderly → s.Lively → Kept excused s t

theorem Running.congr {address : Nat} (running : s.Running address)
    (events : t.eventsOf address = s.eventsOf address)
    (cell : t.cellAt address = s.cellAt address) : t.Running address := by
  obtain ⟨before, f, same, life, here⟩ := running
  exact ⟨before, f, events.trans same, life, cell.trans here⟩

theorem Kept.refl (lively : s.Lively) : Kept excused s s :=
  ⟨lively, fun _ running => running, fun _ _ => ⟨rfl, rfl⟩, fun _ _ => rfl, fun _ _ h => h,
    fun _ _ _ untold => untold⟩

namespace Tends

theorem mono {weaker : Prop} (tends : Tends excused s t)
    (implies : s.debug = true → excused → weaker) : Tends weaker s t where
  history := tends.history
  size := tends.size
  debug := tends.debug
  kept orderly lively := by
    have kept := tends.kept orderly lively
    exact ⟨kept.lively, kept.idle, kept.running, kept.factory, kept.definition,
      fun debug not => kept.told debug fun excuse => not (implies debug excuse)⟩

theorem trans (first : Tends excused s t) (second : Tends excused t u) : Tends excused s u where
  history := first.history.trans second.history
  size := Nat.le_trans first.size second.size
  debug := second.debug.trans first.debug
  kept orderly lively := by
    have kept := first.kept (orderly.of_later second.history) lively
    have kept' := second.kept orderly kept.lively
    refine ⟨kept'.lively, fun address running => ?_, fun address running => ?_,
      fun address inside => ?_, fun address p defined => ?_, fun debug not address untold => ?_⟩
    · exact kept.idle address (kept'.idle address running)
    · obtain ⟨events, cell⟩ := kept.running address running
      obtain ⟨events', cell'⟩ := kept'.running address (running.congr events cell)
      exact ⟨events'.trans events, cell'.trans cell⟩
    · exact (kept'.factory address (Nat.lt_of_lt_of_le inside first.size)).trans
        (kept.factory address inside)
    · exact kept'.definition address p (kept.definition address p defined)
    · exact kept.told debug not address (kept'.told (first.debug.trans debug) not address untold)

/-- What comes after an evaluation that ends with a value. -/
theorem after (first : Tends False s t) (second : Tends excused t u) : Tends excused s u :=
  (first.mono fun _ => False.elim).trans second

/-- What leaves history and cells as they are. -/
theorem of_same (history : t.history = s.history) (cells : t.cells = s.cells)
    (debug : t.debug = s.debug) : Tends excused s t where
  history := history ▸ List.prefix_rfl
  size := cells ▸ Nat.le_refl _
  debug := debug
  kept _ lively := by
    have events (address : Nat) : t.eventsOf address = s.eventsOf address := by
      rw [eventsOf, history]
      rfl
    have cell (address : Nat) : t.cellAt address = s.cellAt address := by
      rw [cellAt, cells]
      rfl
    refine ⟨⟨fun address inside => ?_, fun address beyond => ?_⟩, fun address running => ?_,
      fun address _ => ⟨events address, cell address⟩, fun address _ => ?_,
      fun address p defined => ?_, fun _ _ address untold => ?_⟩
    · rw [events, cell]
      exact (lively.life address (cells ▸ inside)).imp_right fun running =>
        running.congr (events address) (cell address)
    · rw [events]
      exact lively.nothing address (cells ▸ beyond)
    · exact running.congr (events address).symm (cell address).symm
    · rw [cell]
    · rw [cell, defined]
    · rwa [events] at untold

theorem refl (s : Store) : Tends excused s s := of_same rfl rfl rfl

/-- What happens while debug messages are recorded for once. -/
theorem loud (tends : Tends excused { s with debug := true } t) :
    Tends excused s { t with debug := s.debug } where
  history := tends.history
  size := tends.size
  debug := rfl
  kept orderly lively := by
    have kept := tends.kept orderly ⟨lively.life, lively.nothing⟩
    exact ⟨⟨kept.lively.life, kept.lively.nothing⟩, kept.idle, kept.running, kept.factory,
      kept.definition, fun _ not => kept.told rfl not⟩

/-- One more cell. -/
theorem addCell (s : Store) (factory : Option Value) : Tends excused s (s.addCell factory) where
  history := by
    change s.history.toList <+: (s.history.push _).toList
    rw [Array.toList_push]
    exact List.prefix_append _ _
  size := by
    change s.cells.size ≤ (s.cells.push _).size
    rw [Array.size_push]
    exact Nat.le_succ _
  debug := rfl
  kept _ lively := by
    have cell (address : Nat) := s.cellAt_addCell factory address
    have events (address : Nat) : (s.addCell factory).eventsOf address =
        if s.cells.size = address then s.eventsOf address ++ [.made factory]
        else s.eventsOf address := eventsOf_note _ _ _ _
    -- Only the new cell has something new.
    have old (address : Nat) (other : address ≠ s.cells.size) :
        (s.addCell factory).eventsOf address = s.eventsOf address ∧
          (s.addCell factory).cellAt address = s.cellAt address :=
      ⟨by rw [events, if_neg (Ne.symm other)], by rw [cell, if_neg other]⟩
    have new : (s.addCell factory).eventsOf s.cells.size = [.made factory] := by
      rw [events, if_pos rfl, lively.nothing _ (Nat.le_refl _), List.nil_append]
    have size : (s.addCell factory).cells.size = s.cells.size + 1 := Array.size_push ..
    have before {address : Nat} (running : s.Running address) : address ≠ s.cells.size := by
      rintro rfl
      obtain ⟨before, f, same, -, -⟩ := running
      rw [lively.nothing _ (Nat.le_refl _)] at same
      simp at same
    refine ⟨⟨fun address inside => ?_, fun address beyond => ?_⟩, fun address running => ?_,
      fun address running => old address (before running), fun address inside => ?_,
      fun address p defined => ?_, fun _ _ address untold => ?_⟩
    · by_cases other : address = s.cells.size
      · subst other
        rw [new, cell, if_pos rfl]
        exact .inl (.made factory)
      · obtain ⟨sameEvents, sameCell⟩ := old address other
        rw [sameEvents, sameCell]
        exact (lively.life address (by omega)).imp_right fun running =>
          running.congr sameEvents sameCell
    · rw [(old address (by omega)).1]
      exact lively.nothing address (by omega)
    · by_cases other : address = s.cells.size
      · subst other
        obtain ⟨before, f, same, -, -⟩ := running
        rw [new] at same
        have last := congrArg List.getLast? same
        simp at last
      · exact running.congr (old address other).1.symm (old address other).2.symm
    · rw [(old address (by omega)).2]
    · by_cases other : address = s.cells.size
      · subst other
        rw [cellAt, Array.getD_eq_getD_getElem?, Array.getElem?_eq_none (Nat.le_refl _)] at defined
        cases defined
      · rw [(old address other).2, defined]
    · by_cases other : address = s.cells.size
      · subst other
        obtain ⟨before, p, same⟩ := untold
        rw [new] at same
        have last := congrArg List.getLast? same
        simp at last
      · rwa [(old address other).1] at untold

end Tends

/-- Whether two stores are the same in all cells but one. -/
structure SameBut (address : Nat) (s t : Store) : Prop where
  size : t.cells.size = s.cells.size
  debug : t.debug = s.debug
  events : ∀ other, address ≠ other → t.eventsOf other = s.eventsOf other
  cell : ∀ other, address ≠ other → t.cellAt other = s.cellAt other

namespace SameBut

theorem refl (s : Store) : SameBut address s s := ⟨rfl, rfl, fun _ _ => rfl, fun _ _ => rfl⟩

theorem trans (first : SameBut address s t) (second : SameBut address t u) :
    SameBut address s u where
  size := second.size.trans first.size
  debug := second.debug.trans first.debug
  events other different := (second.events other different).trans (first.events other different)
  cell other different := (second.cell other different).trans (first.cell other different)

theorem note (s : Store) (address : Nat) (event : CellEvent) :
    SameBut address s (s.note address event) :=
  ⟨rfl, rfl, fun _ different => s.eventsOf_note_of_ne different event, fun _ _ => rfl⟩

theorem settle (s : Store) (address : Nat) (p : Parser) :
    SameBut address s (s.settle address p) where
  size := s.size_cells_settle address p
  debug := s.debug_settle address p
  events other different := by
    unfold Store.settle
    split
    · exact eventsOf_note_of_ne _ different _
    · rfl
  cell other different := by
    rw [cellAt_settle, if_neg fun both => different both.1]

end SameBut

/-- One cell gets on with its life, and meanwhile other things happen. -/
theorem Kept.proceed (before : SameBut address s t) (kept : Kept excused t u)
    (size : t.cells.size ≤ u.cells.size) (after : SameBut address u v)
    (inside : address < s.cells.size) (idle : ¬s.Running address)
    (undefined : (s.cellAt address).definition = none)
    (factory : (v.cellAt address).factory = (s.cellAt address).factory)
    (life : Cell.Life (v.eventsOf address) (v.cellAt address))
    (told : s.debug = true → ¬excused → ¬CellEvent.Untold (v.eventsOf address)) :
    Kept excused s v := by
  have room : u.cells.size = v.cells.size := after.size.symm
  refine ⟨⟨fun other within => ?_, fun other beyond => ?_⟩, fun other running => ?_,
    fun other running => ?_, fun other within => ?_, fun other p defined => ?_,
    fun debug not other untold => ?_⟩
  all_goals by_cases here : address = other
  · exact .inl (here ▸ life)
  · rw [after.events other here, after.cell other here]
    exact (kept.lively.life other (room ▸ within)).imp_right fun running =>
      running.congr (after.events other here) (after.cell other here)
  · have := before.size
    omega
  · rw [after.events other here]
    exact kept.lively.nothing other (room ▸ beyond)
  · subst here
    obtain ⟨earlier, f, same, -, -⟩ := running
    exact absurd same (life.ne_called earlier)
  · have between := kept.idle other
      (running.congr (after.events other here).symm (after.cell other here).symm)
    exact between.congr (before.events other here).symm (before.cell other here).symm
  · exact absurd (here ▸ running) idle
  · have between := running.congr (before.events other here) (before.cell other here)
    obtain ⟨events, cell⟩ := kept.running other between
    rw [after.events other here, after.cell other here, events, cell]
    exact ⟨before.events other here, before.cell other here⟩
  · exact here ▸ factory
  · rw [after.cell other here, kept.factory other (before.size ▸ within), before.cell other here]
  · rw [← here, undefined] at defined
    cases defined
  · rw [after.cell other here]
    exact kept.definition other p (by rw [before.cell other here, defined])
  · exact absurd (here ▸ untold) (told debug not)
  · rw [after.events other here] at untold
    have between := kept.told (before.debug.trans debug) not other untold
    rwa [before.events other here] at between

/-! ## Definitions -/

theorem eventsOf_settle (inside : address < s.cells.size) :
    (s.settle address p).eventsOf address = s.eventsOf address ++ [.defined p] := by
  rw [settle, if_pos inside]
  exact eventsOf_note_self _ _ _

theorem cellAt_settle_self (inside : address < s.cells.size) :
    (s.settle address p).cellAt address = { s.cellAt address with definition := some p } := by
  rw [cellAt_settle, if_pos ⟨rfl, inside⟩]

theorem history_settle (s : Store) (address : Nat) (p : Parser) :
    s.history.toList <+: (s.settle address p).history.toList := by
  unfold settle
  split
  · exact Array.toList_push ▸ List.prefix_append _ _
  · exact List.prefix_rfl

theorem history_note (s : Store) (address : Nat) (event : CellEvent) :
    s.history.toList <+: (s.note address event).history.toList := by
  rw [note, Array.toList_push]
  exact List.prefix_append _ _

/-- What is waiting is at rest, unless it is running. -/
theorem Lively.life_of_waiting (lively : s.Lively)
    (waiting : s.cellAt address = ⟨some f, none⟩) (idle : ¬s.Running address) :
    Cell.Life (s.eventsOf address) ⟨some f, none⟩ :=
  waiting ▸ (lively.life address (lt_size_of_factory (by rw [waiting]))).resolve_right idle

namespace Tends

/-- A definition is given to a cell that has neither one nor a factory. -/
theorem given (undefined : s.cellAt address = ⟨none, none⟩) :
    Tends excused s (s.settle address p) where
  history := s.history_settle address p
  size := Nat.le_of_eq (s.size_cells_settle address p).symm
  debug := s.debug_settle address p
  kept _ lively := by
    by_cases inside : address < s.cells.size
    · have idle : ¬s.Running address := by
        rintro ⟨before, f, -, -, here⟩
        rw [undefined] at here
        cases here
      have life := (lively.life address inside).resolve_right idle
      rw [undefined] at life
      refine Kept.proceed (.refl s) (.refl lively) (Nat.le_refl _) (.settle s address p) inside
        idle (by rw [undefined]) ?_ ?_ fun _ _ => ?_
      · rw [cellAt_settle_self inside]
      · rw [eventsOf_settle inside, cellAt_settle_self inside, undefined]
        exact life.given p
      · rw [eventsOf_settle inside, life.eq_made]
        rintro ⟨before, q, same⟩
        have second := congrArg (fun events => events.reverse[1]?) same
        simp at second
    · rw [settle, if_neg inside]
      exact .refl lively

theorem inside (waiting : s.cellAt address = ⟨some f, none⟩)
    (inner : Tends excused (s.note address .called) u) : address < u.cells.size := by
  have before : address < s.cells.size := lt_size_of_factory (by rw [waiting])
  exact Nat.lt_of_lt_of_le before inner.size

/-- While a factory is running, its cell waits for the end of the call. -/
theorem supplied (waiting : s.cellAt address = ⟨some f, none⟩)
    (inner : Tends excused (s.note address .called) u) (orderly : u.Orderly) (lively : s.Lively) :
    ¬s.Running address ∧ Cell.Life (s.eventsOf address) ⟨some f, none⟩ ∧
      u.eventsOf address = s.eventsOf address ++ [.called] ∧ u.cellAt address = ⟨some f, none⟩ ∧
        Kept excused (s.note address .called) u := by
  have idle := (orderly.of_later inner.history).not_running
  have life := lively.life_of_waiting waiting idle
  have called : (s.note address .called).Running address :=
    ⟨s.eventsOf address, f, s.eventsOf_note_self address _, life, waiting⟩
  have others (other : Nat) (different : address ≠ other) :=
    s.eventsOf_note_of_ne different .called
  have start : (s.note address .called).Lively := by
    refine ⟨fun other inside => ?_, fun other beyond => ?_⟩
    · by_cases here : address = other
      · exact .inr (here ▸ called)
      · rw [others other here]
        exact (lively.life other inside).imp_right fun running =>
          running.congr (others other here) rfl
    · have different : address ≠ other := by
        have inside : address < s.cells.size := lt_size_of_factory (by rw [waiting])
        change s.cells.size ≤ other at beyond
        omega
      rw [others other different]
      exact lively.nothing other beyond
  have kept := inner.kept orderly start
  obtain ⟨events, cell⟩ := kept.running address called
  exact ⟨idle, life, events.trans (s.eventsOf_note_self address _), cell.trans waiting, kept⟩

/-- A call of a factory comes to its end, and something becomes of the cell: the call comes to
nothing, or it gives the definition. -/
theorem supply (waiting : s.cellAt address = ⟨some f, none⟩)
    (inner : Tends excused (s.note address .called) u) (after : SameBut address u v)
    (history : u.history.toList <+: v.history.toList) (tail : List CellEvent)
    (events : v.eventsOf address = u.eventsOf address ++ tail)
    (factory : (v.cellAt address).factory = (u.cellAt address).factory)
    (life : u.cellAt address = ⟨some f, none⟩ →
      Cell.Life (s.eventsOf address) ⟨some f, none⟩ →
        Cell.Life (s.eventsOf address ++ .called :: tail) (v.cellAt address))
    (told : s.debug = true → ¬excused →
      ∀ before, ¬CellEvent.Untold (before ++ .called :: tail)) : Tends excused s v where
  history := ((s.history_note address .called).trans inner.history).trans history
  size := after.size ▸ inner.size
  debug := after.debug.trans inner.debug
  kept orderly lively := by
    obtain ⟨idle, start, called, here, kept⟩ :=
      inner.supplied waiting (orderly.of_later history) lively
    rw [called, List.append_assoc, List.singleton_append] at events
    refine Kept.proceed (.note s address .called) kept inner.size after
      (lt_size_of_factory (by rw [waiting])) idle (by rw [waiting]) ?_ ?_ fun debug not => ?_
    · rw [factory, here, waiting]
    · exact events ▸ life here start
    · exact events ▸ told debug not _

/-- The call of a factory ends without a value. -/
theorem failed (waiting : s.cellAt address = ⟨some f, none⟩)
    (inner : Tends excused (s.note address .called) u) :
    Tends excused s (u.note address .failed) := by
  refine inner.supply waiting (.note u address _) (u.history_note address _) [.failed]
    (u.eventsOf_note_self address _) rfl (fun here life => ?_) fun _ _ before untold => ?_
  · exact here ▸ life.failed
  · obtain ⟨earlier, p, same⟩ := untold
    have last := congrArg (fun events => events.reverse[0]?) same
    simp at last

/-- The factory has made the definition. -/
theorem resolved (waiting : s.cellAt address = ⟨some f, none⟩)
    (inner : Tends False (s.note address .called) u) :
    Tends (s.debug = true) s ((u.note address .returned).settle address p) := by
  have room : address < u.cells.size := inner.inside waiting
  have inside : address < (u.note address .returned).cells.size := room
  refine (inner.mono fun _ => False.elim).supply waiting
    ((SameBut.note u address _).trans (.settle _ address p))
    ((u.history_note address _).trans (history_settle _ _ _)) [.returned, .defined p] ?_ ?_ ?_
    fun debug not => absurd debug not
  · rw [eventsOf_settle inside, eventsOf_note_self, List.append_assoc]
    rfl
  · rw [cellAt_settle_self inside]
    rfl
  · intro here life
    rw [cellAt_settle_self inside, cellAt_note, here]
    exact life.resolved p

/-- The factory has made the definition, and this is told. -/
theorem told (waiting : s.cellAt address = ⟨some f, none⟩)
    (inner : Tends False (s.note address .called) u) (trace : Array Answer) :
    Tends excused s
      ({ (u.note address .returned).settle address p with trace := trace }.note address .told) := by
  have room : address < u.cells.size := inner.inside waiting
  have inside : address < (u.note address .returned).cells.size := room
  have messaged (v : Store) : SameBut address v { v with trace := trace } :=
    ⟨rfl, rfl, fun _ _ => rfl, fun _ _ => rfl⟩
  refine (inner.mono fun _ => False.elim).supply waiting
    ((SameBut.note u address _).trans
      ((SameBut.settle _ address p).trans ((messaged _).trans (.note _ address .told))))
    ((u.history_note address _).trans ((history_settle _ _ p).trans (history_note _ _ _)))
    [.returned, .defined p, .told] ?_ ?_ ?_ fun _ _ before untold => ?_
  · rw [eventsOf_note_self]
    change ((u.note address .returned).settle address p).eventsOf address ++ _ = _
    rw [eventsOf_settle inside, eventsOf_note_self, List.append_assoc, List.append_assoc]
    rfl
  · change (((u.note address .returned).settle address p).cellAt address).factory = _
    rw [cellAt_settle_self inside]
    rfl
  · intro here life
    change Cell.Life _ (((u.note address .returned).settle address p).cellAt address)
    rw [cellAt_settle_self inside, cellAt_note, here]
    exact life.told p
  · obtain ⟨earlier, q, same⟩ := untold
    have last := congrArg (fun events => events.reverse[0]?) same
    simp at last

end Tends

end GrammarKit.Store
