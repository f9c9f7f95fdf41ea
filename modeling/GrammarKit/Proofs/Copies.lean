import GrammarKit.Proofs.Growth

/-! # Copies, names and mappings

A copy of a parser is the parser itself once more, so nothing can tell the two apart but their
identity. A named parser comes to what the parser comes to, and a mapped one to what the mapping
makes of that: the mapping is applied after the one that the parser may have already, so it makes no
difference whether values are mapped while parsing or afterwards.

The parsers here are evaluated without side effects on the input in question: the processing of the
input and the mapping of each value come to an end, and the store only grows by them.
-/

namespace GrammarKit

mutual

/-- Whether copying a parser leaves nothing out: no part of it emits given pairs, and none is
something else than a parser. -/
def Parser.IsCopied : Parser → Prop
  | .node shape _ _ => shape.IsCopied

/-- Whether copying the parts of a shape leaves nothing out. -/
def Shape.IsCopied : Shape → Prop
  | .negation p => p.IsCopied
  | .bind p _ _ => p.IsCopied
  | .choice ps => Parser.AllCopied ps
  | .many p _ => p.IsCopied
  | .emit _ | .foreign _ => False
  | _ => True

/-- Whether copying several parsers leaves nothing out. -/
def Parser.AllCopied : List Parser → Prop
  | [] => True
  | p :: ps => p.IsCopied ∧ Parser.AllCopied ps

end

mutual

/-- A copy has the same shape, mapping and name, at every node. -/
theorem Parser.copy_eq : ∀ p : Parser, p.IsCopied → p.copy = p
  | .node shape mapping name, copied => by
    rw [Parser.copy, Shape.copy_eq shape copied]

theorem Shape.copy_eq : ∀ shape : Shape, shape.IsCopied → Parser.copyShape shape = shape
  | .negation p, copied => by rw [Parser.copyShape, Parser.copy_eq p copied]
  | .bind p _ _, copied => by rw [Parser.copyShape, Parser.copy_eq p copied]
  | .choice ps, copied => by rw [Parser.copyShape, Parser.copyAll_eq ps copied]
  | .many p _, copied => by rw [Parser.copyShape, Parser.copy_eq p copied]
  | .unit _, _ | .zero, _ | .item, _ | .lazy _, _ | .lazyOver _, _ | .splits _, _ => rfl

theorem Parser.copyAll_eq : ∀ ps : List Parser, Parser.AllCopied ps → Parser.copyAll ps = ps
  | [], _ => rfl
  | p :: ps, copied => by
    rw [Parser.copyAll, Parser.copy_eq p copied.1, Parser.copyAll_eq ps copied.2]

end

mutual

/-- No part of a parser stands in the way of its copy. -/
theorem Parser.copyError?_eq_none : ∀ p : Parser, p.IsCopied → p.copyError? = none
  | .node shape _ _, copied => Shape.copyError?_eq_none shape copied

theorem Shape.copyError?_eq_none : ∀ shape : Shape, shape.IsCopied →
    Parser.copyErrorShape? shape = none
  | .negation p, copied => Parser.copyError?_eq_none p copied
  | .bind p _ _, copied => Parser.copyError?_eq_none p copied
  | .choice ps, copied => Parser.copyErrorAll?_eq_none ps copied
  | .many p _, copied => Parser.copyError?_eq_none p copied
  | .unit _, _ | .zero, _ | .item, _ | .lazy _, _ | .lazyOver _, _ | .splits _, _ => rfl

theorem Parser.copyErrorAll?_eq_none : ∀ ps : List Parser, Parser.AllCopied ps →
    Parser.copyErrorAll? ps = none
  | [], _ => rfl
  | p :: ps, copied => by
    rw [Parser.copyErrorAll?, Parser.copyError?_eq_none p copied.1,
      Parser.copyErrorAll?_eq_none ps copied.2]
    rfl

end

/-- Derivations whose values are replaced by what `φ` makes of them; the first error ends it. -/
def mappedBy (φ : Value → Except Error Value) (ds : List Derivation) :
    Except Error (List Derivation) :=
  ds.mapM fun d => do return ⟨← φ d.value, d.remainder⟩

variable {s : Store} {p : Parser} {x : Value} {found : Except Error (List Derivation)}
  {φ : Value → Except Error Value}

/-- Whether a parser makes `o` of a value that it has found, without side effects. -/
def Parser.MapsTo (s : Store) (p : Parser) (v : Value) (o : Except Error Value) : Prop :=
  match p.mapping with
  | none => o = .ok v
  | some g => g.ComesTo s v o

/-- Whether a parser is evaluated on an input without side effects: it finds `found`, of each value
there it makes what `φ` tells, and if it is lazy then its definition is there. -/
structure Parser.Evaluates (s : Store) (p : Parser) (x : Value)
    (found : Except Error (List Derivation)) (φ : Value → Except Error Value) : Prop where
  shown : (Effects.growth s).Shows (.parser p)
  read : (Effects.growth s).Shows x
  actual : p.isForeign = false
  defined : ∀ address, p.shape = .lazy address → ∃ q, (s.cellAt address).definition = some q
  processed : (Effects.growth s).Settles (fun ev => ev.process p x) found
  mapped : ∀ ds, found = .ok ds → ∀ d ∈ ds, p.MapsTo s d.value (φ d.value)

/-- Whether a function makes `k v` of every value `v` that is passed on, without side effects. -/
def Value.Computes (s : Store) (found : Except Error (List Derivation))
    (φ : Value → Except Error Value) (f : Value) (k : Value → Value) : Prop :=
  ∀ ds, found = .ok ds → ∀ d ∈ ds, ∀ v, φ d.value = .ok v → f.ComesTo s v (.ok (k v))

theorem mappedBy_cons (d : Derivation) (ds : List Derivation) :
    mappedBy φ (d :: ds) = φ d.value >>= fun v => mappedBy φ ds >>= fun rest =>
      .ok (⟨v, d.remainder⟩ :: rest) := by
  simp only [mappedBy, List.mapM_cons, bind_assoc, pure_bind]
  rfl

/-- What is passed on unchanged stays as it is. -/
theorem mappedBy_ok {ds : List Derivation} (unchanged : ∀ d ∈ ds, φ d.value = .ok d.value) :
    mappedBy φ ds = .ok ds := by
  induction ds with
  | nil => rfl
  | cons d ds ih =>
    rw [mappedBy_cons, unchanged d List.mem_cons_self,
      ih fun other member => unchanged other (List.mem_cons_of_mem _ member)]
    rfl

/-- To replace the values once more is to map what has become of them. -/
theorem mappedBy_map (k : Value → Value) (ds : List Derivation) :
    mappedBy (fun v => (φ v).map k) ds = (mappedBy φ ds).map (withValues k) := by
  induction ds with
  | nil => rfl
  | cons d ds ih =>
    rw [mappedBy_cons, mappedBy_cons, ih]
    cases φ d.value with
    | error e => rfl
    | ok v => cases mappedBy φ ds <;> rfl

theorem bind_mappedBy_map (found : Except Error (List Derivation)) (k : Value → Value) :
    (found >>= mappedBy fun v => (φ v).map k) = (found >>= mappedBy φ).map (withValues k) := by
  cases found with
  | ok ds => exact mappedBy_map k ds
  | error e => rfl

/-- Every value in the outcome has been passed on. -/
theorem exists_of_mem_mappedBy {ds es : List Derivation} (replaced : mappedBy φ ds = .ok es) :
    ∀ e ∈ es, ∃ d ∈ ds, φ d.value = .ok e.value := by
  induction ds generalizing es with
  | nil =>
    cases replaced
    exact List.forall_mem_nil _
  | cons d ds ih =>
    rw [mappedBy_cons] at replaced
    obtain ⟨v, here, replaced⟩ := Except.bind_eq_ok_iff.mp replaced
    obtain ⟨rest, others, replaced⟩ := Except.bind_eq_ok_iff.mp replaced
    cases replaced
    refine List.forall_mem_cons.mpr ⟨⟨d, List.mem_cons_self, here⟩, fun e member => ?_⟩
    obtain ⟨other, found, passed⟩ := ih others e member
    exact ⟨other, List.mem_cons_of_mem _ found, passed⟩

namespace Evaluator

theorem settles_mapValues {g : Value} (ds : List Derivation)
    (given : ∀ d ∈ ds, g.ComesTo s d.value (φ d.value)) :
    (Effects.growth s).Settles (fun ev => ev.mapValues g ds) (mappedBy φ ds) := by
  induction ds with
  | nil => exact .lift (.ok [])
  | cons d ds ih =>
    have others := ih fun other member => given other (List.mem_cons_of_mem _ member)
    have whole := (given d List.mem_cons_self).bind_all fun v _ => others.bind_all fun rest _ =>
      Effects.Settles.lift (.ok ((⟨v, d.remainder⟩ : Derivation) :: rest))
    rw [mappedBy_cons]
    exact whole.congr fun n t _ => rfl

end Evaluator

/-- What can be called is a mapping. -/
theorem Value.ComesTo.toOption_eq {f v w : Value} (called : f.ComesTo s v (.ok w)) :
    f.toOption = some f := by
  cases f with
  | none =>
    have refused : Value.none.ComesTo s v (.error .wrongKind) :=
      Effects.Settles.deeper (.lift (.error .wrongKind)) fun _ => rfl
    cases Effects.Settles.unique (b := .growth s) (Store.Grows.refl s) called refused
  | _ => rfl

/-- A composed function gives what the second one gives for what the first one gives. -/
theorem Value.ComesTo.composed {f g v : Value} {o : Except Error Value} {k : Value → Value}
    (first : g.ComesTo s v o) (second : ∀ w, o = .ok w → f.ComesTo s w (.ok (k w))) :
    (Value.function (.composed g f)).ComesTo s v (o.map k) := by
  have both : (Effects.growth s).Settles (fun ev => ev.call g [v] >>= fun w => ev.call f [w])
      (o >>= fun w => .ok (k w)) := first.bind_all second
  have same : o.map k = o >>= fun w => .ok (k w) := by cases o <;> rfl
  rw [same]
  exact both.deeper fun _ => rfl

/-- The mapping of a mapped parser follows the one that was there before, if there was one. -/
theorem Parser.mapsTo_map {f v : Value} {o : Except Error Value} {k : Value → Value}
    (maps : p.MapsTo s v o) (given : ∀ w, o = .ok w → f.ComesTo s w (.ok (k w))) :
    (p.map f).MapsTo s v (o.map k) := by
  obtain ⟨shape, mapping, name⟩ := p
  cases mapping with
  | none =>
    have here : f.ComesTo s v (.ok (k v)) := given v maps
    have outcome : o = .ok v := maps
    change match f.toOption with
      | none => o.map k = .ok v
      | some g => g.ComesTo s v (o.map k)
    rw [here.toOption_eq, outcome]
    exact here
  | some g => exact Value.ComesTo.composed maps given

namespace Parser.Evaluates

/-- What a parser comes to is what becomes of what it finds. -/
theorem settles_parse (evaluates : p.Evaluates s x found φ) :
    (Effects.growth s).Settles (fun ev => ev.parse p x) (found >>= mappedBy φ) := by
  have produced : (Effects.growth s).Settles (fun ev => ev.produce p x) (found >>= mappedBy φ) := by
    refine evaluates.processed.bind_all fun ds finds => ?_
    have mapped := evaluates.mapped ds finds
    obtain ⟨shape, mapping, name⟩ := p
    cases mapping with
    | none =>
      rw [mappedBy_ok mapped]
      exact .lift (.ok ds)
    | some g => exact Evaluator.settles_mapValues ds mapped
  exact (Effects.settles_use evaluates.actual evaluates.shown evaluates.read produced).deeper
    fun _ => rfl

/-- A call of the parser hands out what it comes to. -/
theorem handsOut_parse (evaluates : p.Evaluates s x found φ) :
    s.HandsOut (fun ev => ev.applyMethod .parse [.parser p, x]) (found >>= mappedBy φ) :=
  (Store.HandsOut.of_settles evaluates.settles_parse).congr fun _ => rfl

/-- Another mapping and another name make no difference to what is found. -/
theorem congr {shape : Shape} {mapping mapping' name name' : Option Value}
    {ψ : Value → Except Error Value}
    (evaluates : (node shape mapping name).Evaluates s x found φ)
    (shown : (Effects.growth s).Shows (.parser (.node shape mapping' name')))
    (mapped : ∀ ds, found = .ok ds → ∀ d ∈ ds,
      (node shape mapping' name').MapsTo s d.value (ψ d.value)) :
    (node shape mapping' name').Evaluates s x found ψ := by
  refine ⟨shown, evaluates.read, ?_, evaluates.defined, ?_, mapped⟩
  · have actual := evaluates.actual
    cases shape with
    | foreign _ => cases actual
    | _ => rfl
  · refine evaluates.processed.congr fun n t grows => ?_
    refine Evaluator.process_congr (fun address lazy => ?_) _ x
    obtain ⟨q, defined⟩ := evaluates.defined address lazy
    exact ⟨q, grows.definition defined⟩

/-- A name is shown in place of the parser, and that is all. -/
theorem named (evaluates : p.Evaluates s x found φ) (copied : p.IsCopied) (cs : List Char) :
    (p.named (.text cs)).Evaluates s x found φ := by
  obtain ⟨shape, mapping, name⟩ := p
  have same : (node shape mapping name).named (.text cs) =
      node shape mapping (some (.text cs)) := by
    rw [Parser.named, Parser.copy_eq _ copied]
    rfl
  rw [same]
  refine evaluates.congr (.of_display fun results fuel => ⟨cs, ?_⟩) evaluates.mapped
  cases fuel <;> rfl

/-- A mapped parser passes the values on to its mapping, after the one that it had before. -/
theorem map (evaluates : p.Evaluates s x found φ) (copied : p.IsCopied) {f : Value}
    {k : Value → Value} (computes : f.Computes s found φ k) :
    (p.map f).Evaluates s x found fun v => (φ v).map k := by
  have shown := evaluates.shown
  have mapped : ∀ ds, found = .ok ds → ∀ d ∈ ds,
      (p.map f).MapsTo s d.value ((φ d.value).map k) := fun ds finds d member =>
    mapsTo_map (evaluates.mapped ds finds d member) (computes ds finds d member)
  obtain ⟨shape, mapping, name⟩ := p
  rw [Parser.map, Parser.copy_eq _ copied] at mapped ⊢
  refine evaluates.congr (fun debug => ?_) mapped
  obtain ⟨depth, texts⟩ := shown debug
  refine ⟨depth, fun n deep t start => ?_⟩
  obtain ⟨text, shows⟩ := texts n deep t start
  refine ⟨text, Eq.trans ?_ shows⟩
  change (liftM (Value.display t.results.unlimited (evaluator n).fuel _) : Eval _) t =
    (liftM (Value.display t.results.unlimited (evaluator n).fuel _) : Eval _) t
  cases (evaluator n).fuel <;> rfl

end Parser.Evaluates

/-- What is mapped can be copied again. -/
theorem Parser.IsCopied.map (copied : p.IsCopied) (f : Value) : (p.map f).IsCopied := by
  rw [Parser.map, Parser.copy_eq p copied]
  obtain ⟨shape, mapping, name⟩ := p
  exact copied

namespace Evaluator

variable (ev : Evaluator)

theorem applyMethod_copy (copied : p.IsCopied) :
    ev.applyMethod .copy [.parser p] = pure (.parser p) := by
  change (do return Value.parser (← copyOf p)) = _
  rw [copyOf, Parser.copyError?_eq_none p copied, Parser.copy_eq p copied]
  exact pure_bind _ _

theorem applyMethod_named (copied : p.IsCopied) (name : Value) :
    ev.applyMethod .named [.parser p, name] = pure (.parser (p.named name)) := by
  change (do let _ ← copyOf p; return Value.parser (p.named name)) = _
  rw [copyOf, Parser.copyError?_eq_none p copied]
  exact pure_bind _ _

theorem applyMethod_map (copied : p.IsCopied) (f : Value) :
    ev.applyMethod .map [.parser p, f] = pure (.parser (p.map f)) := by
  change (do let _ ← copyOf p; return Value.parser (p.map f)) = _
  rw [copyOf, Parser.copyError?_eq_none p copied]
  exact pure_bind _ _

end Evaluator

/-- A mapped parser hands out the mapped values. -/
theorem Parser.Evaluates.handsOut_map (evaluates : p.Evaluates s x found φ) (copied : p.IsCopied)
    {f : Value} {k : Value → Value} (computes : f.Computes s found φ k) :
    s.HandsOut (fun ev => do ev.applyMethod .parse [← ev.applyMethod .map [.parser p, f], x])
      ((found >>= mappedBy φ).map (withValues k)) := by
  have mapped := (evaluates.map copied computes).handsOut_parse
  rw [bind_mappedBy_map] at mapped
  refine mapped.congr fun ev => ?_
  rw [ev.applyMethod_map copied, pure_bind]

/-- A parser that is mapped twice is evaluated like one that is mapped by the composed function. -/
theorem Parser.Evaluates.map_map (evaluates : p.Evaluates s x found φ) (copied : p.IsCopied)
    {f g : Value} {k l : Value → Value} (first : f.Computes s found φ k)
    (second : g.Computes s found (fun v => (φ v).map k) l) :
    ((p.map f).map g).Evaluates s x found fun v => (φ v).map fun w => l (k w) := by
  have twice := (evaluates.map copied first).map (copied.map f) second
  have same (v : Value) : ((φ v).map k).map l = (φ v).map fun w => l (k w) := by
    cases φ v <;> rfl
  simp only [same] at twice
  exact twice

/-- A copy of a parser is shown like it, comes to the same and records the same messages. Named
forms come to the same, too, and to map a parser is to map what it comes to, also where it has a
mapping already and where it is mapped twice. After all this, which only lets the store grow, the
parser itself comes to what it came to before. -/
theorem copies_parse_alike (copied : p.IsCopied) :
    (∀ ev : Evaluator,
      (do ev.display (← ev.applyMethod .copy [.parser p])) = ev.display (.parser p) ∧
      ∀ x, (do ev.applyMethod .parse [← ev.applyMethod .copy [.parser p], x]) =
        ev.applyMethod .parse [.parser p, x]) ∧
    ∀ s x found φ, p.Evaluates s x found φ →
      (∀ t, s.Grows t → t.HandsOut (fun ev => ev.applyMethod .parse [.parser p, x])
        (found >>= mappedBy φ)) ∧
      (∀ cs, s.HandsOut (fun ev => do
        ev.applyMethod .parse [← ev.applyMethod .named [.parser p, .text cs], x])
        (found >>= mappedBy φ)) ∧
      ∀ f k, f.Computes s found φ k →
        s.HandsOut (fun ev => do
          ev.applyMethod .parse [← ev.applyMethod .map [.parser p, f], x])
          ((found >>= mappedBy φ).map (withValues k)) ∧
        s.HandsOut (fun ev => do
          ev.applyMethod .mapValues [← ev.applyMethod .parse [.parser p, x], f])
          ((found >>= mappedBy φ).map (withValues k)) ∧
        ∀ g h l, g.Computes s found (fun v => (φ v).map k) l →
          h.Computes s found φ (fun v => l (k v)) →
          s.HandsOut (fun ev => do
            let q ← ev.applyMethod .map [.parser p, f]
            ev.applyMethod .parse [← ev.applyMethod .map [q, g], x])
            ((found >>= mappedBy φ).map (withValues fun v => l (k v))) ∧
          s.HandsOut (fun ev => do
            ev.applyMethod .parse [← ev.applyMethod .map [.parser p, h], x])
            ((found >>= mappedBy φ).map (withValues fun v => l (k v))) := by
  refine ⟨fun ev => ?_, fun s x found φ evaluates => ?_⟩
  · rw [ev.applyMethod_copy copied]
    exact ⟨pure_bind _ _, fun x => pure_bind _ _⟩
  have parsed := evaluates.handsOut_parse
  refine ⟨fun t grows => parsed.later grows, fun cs => ?_, fun f k computes => ?_⟩
  · refine (evaluates.named copied cs).handsOut_parse.congr fun ev => ?_
    rw [ev.applyMethod_named copied, pure_bind]
  refine ⟨evaluates.handsOut_map copied computes, parsed.mapValues ?_, fun g h l second both => ?_⟩
  · intro es outcome e member
    obtain ⟨ds, finds, replaced⟩ := Except.bind_eq_ok_iff.mp outcome
    obtain ⟨d, inside, value⟩ := exists_of_mem_mappedBy replaced e member
    exact computes ds finds d inside e.value value
  · refine ⟨?_, evaluates.handsOut_map copied both⟩
    have twice := (evaluates.map_map copied computes second).handsOut_parse
    rw [bind_mappedBy_map] at twice
    refine twice.congr fun ev => ?_
    rw [ev.applyMethod_map copied, pure_bind, ev.applyMethod_map (copied.map f), pure_bind]

/-- A store with the definition of a lazy parser, while messages are recorded. -/
def lazyItemStore : Store where
  results := {}
  cells := #[⟨none, some Parser.item⟩]
  globals := []
  trace := #[]
  debug := true

/-- A lazy parser of one item, which makes a list of it. -/
def listedItem : Parser := .node (.lazy 0) (some (.kind .list)) none

/-- Written as a function: the length of what it is given, as a text. -/
def lengthText : Callback :=
  .closure [⟨"v", .standard, none⟩]
    (.apply (.operator .call) [.kind .text, .apply (.operator .length) [.variable "v"]]) []

theorem listedItem_evaluates : listedItem.Evaluates lazyItemStore (.text ['a', 'b'])
    (.ok [⟨.text ['a'], .text ['b']⟩]) fun v => .ok (.list [v]) where
  shown := .of_display fun _ fuel => ⟨"lazy(...)".toList, by cases fuel <;> rfl⟩
  read := .of_display fun _ fuel => ⟨quoteText ['a', 'b'], by cases fuel <;> rfl⟩
  actual := rfl
  defined := by
    rintro _ ⟨⟩
    exact ⟨Parser.item, rfl⟩
  processed := by
    have resolved : (Effects.growth lazyItemStore).Settles
        (fun ev => ev.resolve 0 (.parser listedItem)) (.ok Parser.item) := by
      exact ⟨0, fun n _ t grows => ⟨t, .refl t,
        Evaluator.resolve_of_defined (Store.Grows.definition grows rfl) _ _⟩⟩
    have used : (Effects.growth lazyItemStore).Settles
        (fun ev => ev.use Parser.item (.text ['a', 'b'])) (.ok [⟨.text ['a'], .text ['b']⟩]) :=
      Effects.settles_use rfl
        (.of_display fun _ fuel => ⟨"item()".toList, by cases fuel <;> rfl⟩)
        (.of_display fun _ fuel => ⟨quoteText ['a', 'b'], by cases fuel <;> rfl⟩)
        (.of_deep 0 fun _ _ => rfl)
    exact resolved.bind (used.deeper fun _ => rfl)
  mapped := by
    rintro _ ⟨⟩ d member
    obtain rfl := List.mem_singleton.mp member
    change (Value.kind .list).ComesTo lazyItemStore (.text ['a']) (.ok (.list [.text ['a']]))
    exact .of_deep 1 fun _ _ => rfl

/-- The length of the list as a text, by two mappings and by one. -/
theorem listedItem_maps_alike :
    lazyItemStore.HandsOut (fun ev => do
      let q ← ev.applyMethod .map [.parser listedItem, .function (.primitive .length)]
      ev.applyMethod .parse [← ev.applyMethod .map [q, .kind .text], .text ['a', 'b']])
      (.ok [⟨.text ['1'], .text ['b']⟩]) ∧
    lazyItemStore.HandsOut (fun ev => do
      let q ← ev.applyMethod .map [.parser listedItem, .function lengthText]
      ev.applyMethod .parse [q, .text ['a', 'b']])
      (.ok [⟨.text ['1'], .text ['b']⟩]) := by
  have length : (Value.function (.primitive .length)).Computes lazyItemStore
      (.ok [⟨.text ['a'], .text ['b']⟩]) (fun v => .ok (.list [v])) fun _ => .int 1 := by
    rintro _ ⟨⟩ d member _ ⟨⟩
    obtain rfl := List.mem_singleton.mp member
    exact .of_deep 1 fun _ _ => rfl
  have text : (Value.kind .text).Computes lazyItemStore
      (.ok [⟨.text ['a'], .text ['b']⟩]) (fun _ => .ok (.int 1)) fun _ => .text ['1'] := by
    rintro _ ⟨⟩ d member _ ⟨⟩
    refine ⟨3, fun n deep t grows => ⟨t, .refl t, ?_⟩⟩
    obtain ⟨n, rfl⟩ : ∃ k, n = k + 3 := ⟨n - 3, by omega⟩
    obtain ⟨⟨lists, runtime⟩, _, _, _, _, _⟩ := t
    obtain rfl : runtime = {} := grows.runtime
    rfl
  have both : (Value.function lengthText).Computes lazyItemStore
      (.ok [⟨.text ['a'], .text ['b']⟩]) (fun v => .ok (.list [v])) fun _ => .text ['1'] := by
    rintro _ ⟨⟩ d member _ ⟨⟩
    obtain rfl := List.mem_singleton.mp member
    refine ⟨8, fun n deep t grows => ⟨t, .refl t, ?_⟩⟩
    obtain ⟨n, rfl⟩ : ∃ k, n = k + 8 := ⟨n - 8, by omega⟩
    obtain ⟨⟨lists, runtime⟩, _, _, _, _, _⟩ := t
    obtain rfl : runtime = {} := grows.runtime
    rfl
  have copied : listedItem.IsCopied := trivial
  obtain ⟨_, _, maps⟩ := (copies_parse_alike copied).2 _ _ _ _ listedItem_evaluates
  exact (maps _ _ length).2.2 _ _ _ text both

end GrammarKit
