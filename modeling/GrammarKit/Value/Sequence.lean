import GrammarKit.Store
import GrammarKit.Value.Slice

/-!
# Values as sequences

Texts, bytes, lists, tuples, derivations and result lists have a length, items and slices. A slice
keeps the kind of its sequence, but for derivations, whose slices are tuples, and result lists,
whose slices are lists. Every other value is no sequence, and asking for its length is an error.
-/

namespace GrammarKit.Value

/-- The characters of a text, each as a text. -/
def ofChars (cs : List Char) : List Value := cs.map fun c => .text [c]

/-- The items of a byte sequence, as numbers. -/
def ofBytes (bs : List UInt8) : List Value := bs.map fun b => .int b.toNat

/-- The items of a collection, in order. -/
def items (results : Results) : Value → Except Error (List Value)
  | .text cs => .ok (ofChars cs)
  | .bytes bs => .ok (ofBytes bs)
  | .list vs => .ok vs
  | .tuple vs => .ok vs
  | .derivation v r => .ok [v, r]
  | .result a => .ok ((results.read a).map Derivation.toValue)
  | _ => .error .wrongKind

/-- The number of items. -/
def length (results : Results) : Value → Except Error Nat
  | .text cs => .ok cs.length
  | .bytes bs => .ok bs.length
  | .list vs => .ok vs.length
  | .tuple vs => .ok vs.length
  | .derivation _ _ => .ok 2
  | .result a => .ok (results.read a).length
  | _ => .error .wrongKind

/-- The first item and the rest, for a sequence that is not empty. -/
def uncons? (results : Results) : Value → Except Error (Option (Value × Value))
  | .text [] | .bytes [] | .list [] | .tuple [] => .ok Option.none
  | .text (c :: cs) => .ok (some (.text [c], .text cs))
  | .bytes (b :: bs) => .ok (some (.int b.toNat, .bytes bs))
  | .list (v :: vs) => .ok (some (v, .list vs))
  | .tuple (v :: vs) => .ok (some (v, .tuple vs))
  | .derivation v r => .ok (some (v, .tuple [r]))
  | .result a =>
    match results.read a with
    | [] => .ok Option.none
    | d :: ds => .ok (some (d.toValue, .list (ds.map Derivation.toValue)))
  | _ => .error .wrongKind

/-- A value that may be used as a position: a whole number or a truth value. -/
def position : Value → Except Error Int
  | .int n => .ok n
  | .bool b => .ok (if b then 1 else 0)
  | _ => .error .wrongKind

/-- A bound of a slice: a position, or `none` where there is no bound. -/
def bound : Value → Except Error (Option Int)
  | .none => .ok Option.none
  | v => some <$> position v

/-- The item at a position, negative ones counting from the end. -/
def index (results : Results) (v key : Value) : Except Error Value := do
  let vs ← items results v
  let k ← position key
  let k := if k < 0 then k + vs.length else k
  if k < 0 then throw .outOfRange
  match vs[k.toNat]? with
  | some item => return item
  | Option.none => throw .outOfRange

/-- The items from `start` up to `stop`, every `step`-th one of them. -/
def slice (results : Results) (v start stop step : Value) : Except Error Value := do
  let cut {α : Type} (xs : List α) : Except Error (List α) := do
    let every := (← bound step).getD 1
    if every = 0 then throw .zeroStep
    return sliceList xs (← bound start) (← bound stop) every
  match v with
  | .text cs => .text <$> cut cs
  | .bytes bs => .bytes <$> cut bs
  | .list vs => .list <$> cut vs
  | .tuple vs => .tuple <$> cut vs
  | .derivation w r => .tuple <$> cut [w, r]
  | .result a => .list <$> cut ((results.read a).map Derivation.toValue)
  | _ => throw .wrongKind

/-- Whether a value counts as true: empty sequences, zero, `false` and `none` do not. -/
def truth (results : Results) : Value → Bool
  | .none => false
  | .bool b => b
  | .int n => n != 0
  | .float x => x != 0
  | .text cs => !cs.isEmpty
  | .bytes bs => !bs.isEmpty
  | .list vs => !vs.isEmpty
  | .tuple vs => !vs.isEmpty
  | .result a => !(results.read a).isEmpty
  | _ => true

/-- The two items of a pair. -/
def unpair (results : Results) (v : Value) : Except Error (Value × Value) := do
  match ← items results v with
  | [a, b] => return (a, b)
  | _ => throw .wrongCount

/-- A pair as a derivation. -/
def toDerivation (results : Results) (v : Value) : Except Error Derivation := do
  match ← items results v with
  | [a, b] => return ⟨a, b⟩
  | _ => throw .wrongKind

mutual

/-- Whether a value may be a member of a set: lists and result lists may not, nor may tuples that
hold one. -/
def hashable : Value → Bool
  | .list _ => false
  | .result _ => false
  | .tuple vs => allHashable vs
  | .derivation v r => hashable v && hashable r
  | _ => true

/-- Whether all of `vs` may be members of a set. -/
def allHashable : List Value → Bool
  | [] => true
  | v :: vs => hashable v && allHashable vs

end

end GrammarKit.Value
