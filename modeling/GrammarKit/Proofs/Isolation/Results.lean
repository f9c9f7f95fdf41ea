import GrammarKit.Proofs.Cells.Discipline
import GrammarKit.Proofs.Isolation.Apart
import GrammarKit.Proofs.Isolation.Freshness

/-! # Result lists are isolated

What a parser returns is kept by nobody else. The object that it gives was not there before, however
many parsers have handed it on, and nobody else has a reference to it. Nothing but pushing to a
result list and extending it changes one that exists, and of a result list that parsing returns
there is no reference left in the store. So whoever appends to it later on changes what other
parsers return only if these have been told of it.
-/

namespace GrammarKit

open Eval (afterwards)

/-! ## Everything but appending -/

/-- Whether an evaluation at a depth leaves the result lists that exist as they are, however it
ends, and comes to the same at every depth that is enough, if it has not been given up. -/
def Framed {α : Type} (s : Store) (x : EStateM.Result Stop Store α)
    (y : Nat → EStateM.Result Stop Store α) : Prop :=
  s.results.Kept (afterwards x).results ∧
    ((∀ t, x ≠ .error .outOfFuel t) → Deep fun m => y m = x)

/-- Parsing leaves the existing result lists as they are, as long as nothing is appended to one. -/
theorem framed_parse (n : Nat) (p : Parser) (input : Value) (s : Store) :
    Framed s ((watched .withoutAppending n).parse p input s)
      fun m => (evaluator m).parse p input s :=
  have framed := Frame.results.lawful.tracks_withoutAppending Frame.results.uses trivial
    (fun _ => trivial) n
  have deeper := deepening.lawful.tracks_withoutAppending deepening.uses trivial
    (fun _ => trivial) n
  ⟨(framed.parse () p input (Parser.within_unlimited p) (Value.within_unlimited input) s).1,
    (deeper.parse () p input (Parser.within_unlimited p) (Value.within_unlimited input)).2 s⟩

/-- So does every operation that does not append itself. -/
theorem framed_applyOperation (n : Nat) {operation : Operation} {arguments : List Value}
    (other : operation.appends arguments = false) (s : Store) :
    Framed s ((watched .withoutAppending n).applyOperation operation arguments s)
      fun m => (evaluator m).applyOperation operation arguments s := by
  have all : ∀ v ∈ arguments, v.Within .unlimited := fun v _ => Value.within_unlimited v
  have framed := Frame.results.lawful.tracks_withoutAppending Frame.results.uses trivial
    (fun _ => trivial) n
  have deeper := deepening.lawful.tracks_withoutAppending deepening.uses trivial
    (fun _ => trivial) n
  refine ⟨(Frame.results.lawful.applyOperation (w := ()) framed all ?_ s).1,
    (deepening.lawful.applyOperation (w := ()) deeper all ?_).2 s⟩
  · exact Comparison.admits_of_name (fun _ => trivial) (by simp [other])
  · exact Comparison.admits_of_name (fun _ => trivial) (by simp [other])

/-! ## Appending -/

/-- Nothing but the result list itself changes. -/
theorem Store.read_appendTo {s : Store} {address : Nat} (inside : address < s.results.size)
    (ds : List Derivation) (other : Nat) :
    (s.appendTo address ds).results.read other =
      if other = address then s.results.read address ++ ds else s.results.read other := by
  unfold appendTo
  dsimp only
  rw [Results.read_write]
  by_cases same : address = other
  · subst same
    simp [inside]
  · simp [same, Ne.symm same]

/-- What a result list holds that nothing refers to may be appended to. -/
theorem Store.Apart.appendTo {address : Nat} {hidden : String → Prop} {s t : Store}
    (apart : s.Apart address hidden t) (ds : List Derivation) :
    s.Apart address hidden (t.appendTo address ds) :=
  { apart with
    size := by
      unfold Store.appendTo
      rw [Results.size_write, apart.size]
    agree := ⟨apart.agree.runtime, fun other elsewhere => by
      have inside : address < t.results.size := apart.size ▸ apart.inside
      rw [Store.read_appendTo inside, if_neg elsewhere, apart.agree.read other elsewhere]⟩ }

/-! ## The result list that parsing returns -/

/-- A store in which nothing refers to a result list is apart from itself. -/
theorem Store.Apart.refl {address : Nat} {s : Store} (within : s.Within (.avoiding address))
    (inside : address < s.results.size) : s.Apart address (fun _ => False) s :=
  ⟨within, inside, rfl, ⟨rfl, fun _ _ => rfl⟩, rfl, rfl, rfl, rfl, fun _ _ => rfl,
    fun _ => False.elim⟩

/-- What refers to the result lists that exist does not refer to the next one. -/
theorem Names.below_le_avoiding (count : Nat) :
    (Names.any.below count).Le (.avoiding count) :=
  ⟨fun _ less => Nat.ne_of_lt less, fun _ may => may⟩

/-- Nothing refers to a result list that is new, not even what it holds. -/
theorem Store.Sound.avoids_next {s : Store} (sound : s.Sound .any) (ds : List Derivation) :
    Within (.avoiding s.results.size) { s with results := s.results.push ds } := by
  have le := Names.below_le_avoiding s.results.size
  refine ⟨fun address elsewhere d member => ?_, fun address => (sound.factory address).mono le,
    fun address p defined => (sound.definition address p defined).mono le, sound.globals.mono le⟩
  have elsewhere : address ≠ s.results.size := elsewhere
  rw [Results.read_push, if_neg elsewhere] at member
  rcases Nat.lt_or_gt_of_ne elsewhere with below | beyond
  · exact (sound.results address below d member).mono le
  · rw [Results.read_eq_nil (Nat.le_of_lt beyond)] at member
    cases member

/-- Parsing returns a new result list that nothing refers to. -/
theorem apart_of_parse {n : Nat} {s t : Store} {p : Parser} {input v : Value}
    (sound : s.Sound .any) (parser : p.Within (Names.any.below s.results.size))
    (read : input.Within (Names.any.below s.results.size))
    (parsed : (evaluator n).applyOperation (.method .parse) [.parser p, input] s = .ok v t) :
    ∃ address, v = .result address ∧ s.results.size ≤ address ∧
      t.Apart address (fun _ => False) t := by
  have steps : ((evaluator n).parse p input >>= fun ds => Store.newResult ds) s = .ok v t := parsed
  obtain ⟨ds, u, found, made⟩ := Eval.bind_eq_ok_iff.mp steps
  cases made
  have ran := ((Pairing.cells_tracks n).parse _ p input parser read).1 s rfl sound
  rw [found] at ran
  obtain ⟨keeps, after, -⟩ := ran
  refine ⟨u.results.size, rfl, keeps.results.size, .refl (after.avoids_next ds) ?_⟩
  rw [Results.size_push]
  exact Nat.lt_succ_self _

/-- What a result list holds that nothing refers to has no part in what a parser returns. -/
theorem ends_apart {address : Nat} {hidden : String → Prop} {s t : Store}
    (apart : s.Apart address hidden t) (n : Nat) {q : Parser} {input : Value}
    (parser : q.Within (.avoiding address)) (read : input.Within (.avoiding address)) :
    (Sides.apart address hidden).Ends s (fun m => (evaluator m).parse q input t)
      (Sides.Same fun ds => ∀ d ∈ ds, d.Within (.avoiding address))
      ((evaluator n).parse q input s) :=
  ((Sides.apart address hidden).lawful.tracks_evaluator (Sides.apart address hidden).uses trivial
    trivial (fun _ => trivial) n).parse () q input parser read s t apart

/-! ## All of it -/

/-- What becomes of the objects of a store, and of what is read at the addresses that lead to them,
when evaluations by reference go on from it. -/
structure Store.KeepsApart (append : Bool) (n : Nat) (s : Store) : Prop where
  /-- A parser gives an object that there was not before and that no address leads to. It holds what
  the parser finds if derivations are passed on in lists that nobody can change. However parsing
  ends, no address leads to the object of another one, and the objects that have not been handed
  out are as they were; so are all objects and all result lists, if nothing may be appended to. -/
  parse : ∀ p input, (Sides.references append).Ends s
    (fun m => (evaluator m).parse p input s.byValue) s.Fresh
    ((byReference append n).parse p input s)
  /-- The same of operations, of which some hand objects out and some append to them. -/
  operation : ∀ o arguments, (Sides.references append).Ends s
    (fun m => (evaluator m).applyOperation o arguments s.byValue) (Sides.Same fun _ => True)
    ((byReference append n).operation append o arguments s)
  /-- What is appended at one address is read at no other one, and no other object is changed. -/
  appendAt : ∀ address ds, (s.appendAt address ds).Coherent ∧
    (s.appendAt address ds).byValue = s.byValue.appendTo address ds ∧
    ∀ o, (address, o) ∉ s.objects.behind →
      (s.appendAt address ds).objects.read o = s.objects.read o
  /-- Whole sessions keep the objects of addresses apart, and end as they do with lists that nobody
  can change. -/
  run : ∀ steps, let run := Session.runSteps (byReference append n).toEvaluator steps s
    run.2.Coherent ∧ ((∀ outcome ∈ run.1, outcome.answer ≠ .error .outOfFuel) →
      Deep fun m => Session.runSteps (evaluator m) steps s.byValue = (run.1, run.2.byValue))

theorem Store.Coherent.keepsApart {s : Store} (coherent : s.Coherent) (append : Bool) (n : Nat) :
    s.KeepsApart append n where
  parse p input := (ByReference.tracks append n).parse p input s coherent
  operation o arguments :=
    (ByReference.tracks append n).operation o arguments s s.byValue ⟨coherent, rfl⟩
  appendAt address ds := ⟨coherent.appendAt address ds, coherent.byValue_appendAt address ds,
    fun _ elsewhere => Store.read_appendAt elsewhere ds⟩
  run steps := ByReference.runSteps append n steps coherent

/-- Result lists are isolated. Where every address leads to an object of its own, parsers give
objects that are new and that nobody else knows, although many of them hand objects on, and this
remains so. Parsing, and every operation but pushing and extending, leaves the result lists that
exist as they are, however it ends, as long as no callback pushes to one or extends one.
Extending changes the receiver alone, which may be extended by itself. A parser returns a new result
list that nothing in the store refers to, not even through a variable. And whatever is appended to a
result list that a parser, its input, the cells and the other result lists do not refer to, and no
variable that is looked up, has no part in what the parser returns: this is what it returns in a
store without the variables that lead to the list, be it a value or an error. -/
theorem results_are_isolated (n : Nat) (s : Store) :
    (∀ append, s.Coherent → s.KeepsApart append n) ∧
    (∀ p input, Framed s ((watched .withoutAppending n).parse p input s)
      fun m => (evaluator m).parse p input s) ∧
    (∀ operation arguments, operation.appends arguments = false →
      Framed s ((watched .withoutAppending n).applyOperation operation arguments s)
        fun m => (evaluator m).applyOperation operation arguments s) ∧
    (∀ address v r, (evaluator n).applyOperation (.method .push) [.result address, v, r] s =
      .ok (.result address) (s.appendTo address [⟨v, r⟩])) ∧
    (∀ address other,
      (evaluator n).applyOperation (.method .extend) [.result address, .result other] s =
        .ok (.result address) (s.appendTo address (s.results.read other))) ∧
    (∀ address ds other, address < s.results.size →
      (s.appendTo address ds).results.read other =
        if other = address then s.results.read address ++ ds else s.results.read other) ∧
    (∀ p input v t, s.Sound .any → p.Within (Names.any.below s.results.size) →
      input.Within (Names.any.below s.results.size) →
      (evaluator n).applyOperation (.method .parse) [.parser p, input] s = .ok v t →
      ∃ address, v = .result address ∧ s.results.size ≤ address ∧
        t.Apart address (fun _ => False) t) ∧
    ∀ address hidden t ds, s.Apart address hidden t →
      s.Apart address hidden (t.appendTo address ds) ∧
      ∀ q input, q.Within (.avoiding address) → input.Within (.avoiding address) →
        (Sides.apart address hidden).Ends s
          (fun m => (evaluator m).parse q input (t.appendTo address ds))
          (Sides.Same fun found => ∀ d ∈ found, d.Within (.avoiding address))
          ((evaluator n).parse q input s) :=
  ⟨fun append coherent => coherent.keepsApart append n, fun p input => framed_parse n p input s,
    fun _ _ other => framed_applyOperation n other s, fun _ _ _ => rfl, fun _ _ => rfl,
    fun _ ds other inside => Store.read_appendTo inside ds other,
    fun _ _ _ _ sound parser read parsed => apart_of_parse sound parser read parsed,
    fun _ _ _ ds apart => ⟨apart.appendTo ds, fun _ _ parser read =>
      ends_apart (apart.appendTo ds) n parser read⟩⟩

/-! ## A result list that a variable leads to -/

/-- The store after one item of a text has been parsed, with the result list that was returned. -/
def Store.afterItem : Store :=
  { Store.initial with results := { lists := #[[⟨.text ['a'], .text ['b']⟩]] } }

/-- The same store with a variable for the result list. -/
def Store.named : Store := { Store.afterItem with globals := [("found", .result 0)] }

/-- One item, replaced by the length of the result list that the variable leads to. -/
def Parser.lengthOfNamed : Parser :=
  item.bind (.function (.closure [⟨"item", .standard, none⟩]
    (.apply (.operator .length) [.variable "found"]) [])) (.bool false)

/-- One item, in a choice after a parser that fails. -/
def Parser.itemAtLast : Parser := Parser.zero.orElse [.parser .item]

/-- A choice hands on the object that its second alternative has made. It was not there before, and
no address leads to it. What one item of another text is does not depend on what is appended to a
result list that has been returned. -/
theorem results_are_isolated_item :
    Store.initial.Coherent ∧
    (∃ t, (byReference false 6).parse .itemAtLast (.text ['a', 'b']) Store.initial = .ok 1 t ∧
      t.Coherent ∧ ¬t.objects.Known 1 ∧ t.objects.read 1 = [⟨.text ['a'], .text ['b']⟩]) ∧
    (evaluator 5).applyOperation (.method .parse) [.parser .item, .text ['a', 'b']] Store.initial =
      .ok (.result 0) Store.afterItem ∧
    ∃ t, Deep fun m => (evaluator m).parse .item (.text ['x'])
      (Store.named.appendTo 0 [⟨.text ['c'], .text ['d']⟩]) = .ok [⟨.text ['x'], .text []⟩] t := by
  have coherent : Store.initial.Coherent := ⟨nofun, nofun, .nil⟩
  have object : ∃ t, (byReference false 6).parse .itemAtLast (.text ['a', 'b']) Store.initial =
      .ok 1 t ∧ t.objects.read 1 = [⟨.text ['a'], .text ['b']⟩] := ⟨_, rfl, rfl⟩
  obtain ⟨t, given, holds⟩ := object
  obtain ⟨objects, -⟩ := results_are_isolated 6 Store.initial
  have ends := (objects false coherent).parse .itemAtLast (.text ['a', 'b'])
  rw [given] at ends
  have unknown : t.Coherent ∧ ¬t.objects.Known 1 := by
    cases ends with
    | value fresh coupled => exact ⟨coupled.1, fresh.unknown⟩
  have parsed : (evaluator 5).applyOperation (.method .parse)
      [.parser .item, .text ['a', 'b']] Store.initial = .ok (.result 0) Store.afterItem := rfl
  obtain ⟨-, -, -, -, -, -, fresh, -⟩ := results_are_isolated 5 Store.initial
  obtain ⟨_, same, -, apart⟩ := fresh .item (.text ['a', 'b']) _ _ (Store.sound_initial .any {})
    Parser.within_item trivial parsed
  cases same
  have named : Store.afterItem.Apart 0 (· = "found") Store.named :=
    { apart with
      visible := fun name other => by
        have differs : (name == "found") = false := beq_false_of_ne other
        simp only [Store.named, List.lookup_cons, differs]
        rfl
      absent := fun _ _ => rfl }
  obtain ⟨-, -, -, -, -, -, -, later⟩ := results_are_isolated 5 Store.afterItem
  have ends := (later 0 _ Store.named [⟨.text ['c'], .text ['d']⟩] named).2 .item (.text ['x'])
    Parser.within_item trivial
  have ran : (evaluator 5).parse .item (.text ['x']) Store.afterItem =
      .ok [⟨.text ['x'], .text []⟩] Store.afterItem := rfl
  rw [ran] at ends
  cases ends with
  | value found _ _ deep =>
    obtain ⟨rfl, -⟩ := found
    exact ⟨coherent, ⟨t, given, unknown.1, unknown.2, holds⟩, parsed, _, deep⟩

/-- A callback may look the variable up, and then it sees what was appended to the result list that
another parser has returned. -/
theorem parse_depends_on_named_result :
    let appended := Store.named.appendTo 0 [⟨.text ['c'], .text ['d']⟩]
    (evaluator 5).applyOperation (.method .parse) [.parser .item, .text ['a', 'b']] Store.initial =
      .ok (.result 0) Store.afterItem ∧
    (Deep fun m => (evaluator m).parse .lengthOfNamed (.text ['x']) Store.named =
      .ok [⟨.int 1, .text []⟩] Store.named) ∧
    (evaluator 5).applyOperation (.method .push) [.result 0, .text ['c'], .text ['d']] Store.named =
      .ok (.result 0) appended ∧
    (Deep fun m => (evaluator m).parse .lengthOfNamed (.text ['x']) appended =
      .ok [⟨.int 2, .text []⟩] appended) := by
  have deep {s : Store} {k : Int}
      (ran : ∀ n, (evaluator (n + 9)).parse .lengthOfNamed (.text ['x']) s =
        .ok [⟨.int k, .text []⟩] s) :
      Deep fun m => (evaluator m).parse .lengthOfNamed (.text ['x']) s =
        .ok [⟨.int k, .text []⟩] s := by
    refine ⟨9, fun m le => ?_⟩
    obtain ⟨n, rfl⟩ : ∃ n, m = n + 9 := ⟨m - 9, by omega⟩
    exact ran n
  exact ⟨rfl, deep fun n => rfl, rfl, deep fun n => rfl⟩

end GrammarKit
