import Mathlib.Algebra.Order.Floor.Ring
import YtScheduler.Serialization.Values

/-! The encoder and the decoder. Every value that JSON lacks, and every dictionary, is
wrapped in one layer that names its type, and the decoder takes one layer off. Read
back from its JSON, an encoded JSON value is that value, and an encoded user spec is
one more layer away from the spec. -/

namespace YtScheduler.Serialization

/-- The exceptions of the decoder. -/
inductive PyError
  | valueError | keyError | typeError | attributeError | runtimeError | overflowError
  deriving DecidableEq

/-! ### Sets -/

namespace Prim

/-- Python compares truth values, integers and floats by their number. -/
def num : Prim → Option ℚ
  | .bool b => some (if b then 1 else 0)
  | .int n => some n
  | .float (.finite q) => some q
  | _ => none

def pyEq (p q : Prim) : Bool :=
  match p.num, q.num with
  | some x, some y => x = y
  | none, none => p = q
  | _, _ => false

def isStr : Prim → Bool
  | .str _ => true
  | _ => false

/-- The order of `sorted`, where two values can be compared. -/
def pyLe (p q : Prim) : Bool :=
  match p.num, q.num with
  | some x, some y => x ≤ y
  | _, _ =>
    match p, q with
    | .str s, .str t => s ≤ t
    | _, _ => true

/-- `sorted` raises a `TypeError` where numbers, strings and `None` meet. -/
def sorted? (xs : List Prim) : Option (List Prim) :=
  if xs.length ≤ 1 || xs.all (fun p => p.num.isSome) || xs.all isStr then
    some (xs.insertionSort fun p q => p.pyLe q = true)
  else none

/-- A primitive as it is serialized: `nan` and the infinities become strings. -/
def serialize : Prim → Prim
  | .float .nan => .str "nan"
  | .float .inf => .str "inf"
  | .float .negInf => .str "-inf"
  | p => p

def IsFinite (p : Prim) : Prop := p.serialize = p

theorem serialize_isFinite (p : Prim) : p.serialize.IsFinite := by
  cases p with
  | float x => cases x <;> rfl
  | _ => rfl

theorem pyEq_comm (p q : Prim) : p.pyEq q = q.pyEq p := by
  unfold pyEq
  cases p.num <;> cases q.num <;> simp [eq_comm]

end Prim

/-! ### Times -/

/-- `timedelta.total_seconds()`. -/
def totalSeconds (micros : ℤ) : ℚ := micros / 1000000

/-- Rounding to the nearest integer, and to the even one of two. -/
def roundHalfEven (q : ℚ) : ℤ :=
  let r := q - ⌊q⌋
  if r < 1 / 2 then ⌊q⌋
  else if 1 / 2 < r then ⌊q⌋ + 1
  else if ⌊q⌋ % 2 = 0 then ⌊q⌋ else ⌊q⌋ + 1

/-- The microseconds of `timedelta(seconds=q)`. -/
def ofSeconds (q : ℚ) : ℤ := roundHalfEven (q * 1000000)

theorem ofSeconds_totalSeconds (micros : ℤ) : ofSeconds (totalSeconds micros) = micros := by
  have hq : totalSeconds micros * 1000000 = (micros : ℚ) := by
    rw [totalSeconds]
    ring
  simp [ofSeconds, hq, roundHalfEven]

/-! ### Sets -/

namespace Val

mutual

/-- `==`, of hashable values. -/
def pyEq : Val → Val → Bool
  | .prim p, .prim q => p.pyEq q
  | .prim (.str s), .attr t => s = t.value
  | .attr t, .prim (.str s) => t.value = s
  | .attr t, .attr u => t = u
  | .tuple xs, .tuple ys => pyEqList xs ys
  | .datetime m, .datetime n => m = n
  | .timedelta m, .timedelta n => m = n
  | _, _ => false

def pyEqList : List Val → List Val → Bool
  | [], [] => true
  | x :: xs, y :: ys => pyEq x y && pyEqList xs ys
  | _, _ => false

end

def prim? : Val → Option Prim
  | .prim p => some p
  | _ => none

/-- The elements of a set in the order they are stored, in order if they can be sorted. -/
def sortSet (xs : List Val) : List Val :=
  match xs.mapM prim? with
  | some ps => ((Prim.sorted? ps).getD ps).map .prim
  | none => xs

/-- A set of these elements: an element equal to an earlier one is dropped. -/
def dedup : List Val → List Val
  | [] => []
  | x :: xs => x :: (dedup xs).filter fun y => !x.pyEq y

theorem dedup_of_pairwise {xs : List Val} (h : xs.Pairwise fun x y => x.pyEq y = false) :
    dedup xs = xs := by
  induction xs with
  | nil => rfl
  | cons x xs ih =>
    rw [List.pairwise_cons] at h
    rw [dedup, ih h.2, List.filter_eq_self.mpr]
    intro y hy
    rw [h.1 y hy]
    rfl

/-! ### Encoding -/

/-- `_encode`. -/
def encode (x : Val) (type : AttrTypes) : Val := .dict [("__var", x), ("__type", .attr type)]

mutual

/-- `serialize`, for values without DAGs and tasks. -/
def serialize : Val → Val
  | .prim p => .prim p.serialize
  | .attr t => .prim (.str t.value)
  | .datetime micros => encode (.prim (.float (.finite (totalSeconds micros)))) .datetime
  | .timedelta micros => encode (.prim (.float (.finite (totalSeconds micros)))) .timedelta
  | .dict es => encode (.dict (serializeEntries es)) .dict
  | .list xs => .list (serializeList xs)
  | .set xs => encode (.list (sortSet (serializeList xs))) .set
  | .tuple xs => encode (.list (serializeList xs)) .tuple

def serializeList : List Val → List Val
  | [] => []
  | x :: xs => serialize x :: serializeList xs

def serializeEntries : Entries → Entries
  | [] => []
  | (k, v) :: es => (k, serialize v) :: serializeEntries es

end

/-- The string a value is, an `AttrTypes` member included. -/
def text? : Val → Option String
  | .prim (.str s) => some s
  | .attr t => some t.value
  | _ => none

/-- A set of these values, which have to be hashable. -/
def toSet (xs : List Val) : Except PyError Val :=
  if hashableList xs then .ok (.set (dedup xs)) else .error .typeError

/-- `datetime.timedelta(seconds=p)`. -/
def ofSeconds (p : Prim) : Except PyError Val :=
  match p.num with
  | some q => .ok (.timedelta (Serialization.ofSeconds q))
  | none => .error (match p with
    | .float .nan => .valueError
    | .float _ => .overflowError
    | _ => .typeError)

/-- What iterating over a string or a dictionary gives. -/
def ofStrings (type : Option String) (xs : List String) : Except PyError Val :=
  if type = some "set" then toSet (xs.map fun s => .prim (.str s))
  else if type = some "tuple" then .ok (.tuple (xs.map fun s => .prim (.str s)))
  else if type = some "dict" then .error .attributeError
  else .error .typeError

section Decoding

variable (fromIsoformat : String → Except PyError ℤ)

/-- `datetime.datetime.fromisoformat(p)`: the argument must be a string. -/
def ofIsoformat : Prim → Except PyError Val
  | .str s => (fromIsoformat s).map .datetime
  | _ => .error .typeError

mutual

/-- `deserialize`: one layer of encoding is taken off. -/
def deserialize : Val → Except PyError Val
  | .prim p => .ok (.prim p)
  | .attr t => .ok (.attr t)
  | .list xs => (deserializeList xs).map .list
  | .dict es => deserializeVar (es.lookup "__type") es
  | .tuple _ => .error .valueError
  | .set _ => .error .valueError
  | .datetime _ => .error .valueError
  | .timedelta _ => .error .valueError

def deserializeList : List Val → Except PyError (List Val)
  | [] => .ok []
  | x :: xs =>
    match deserialize x with
    | .ok y => (deserializeList xs).map (y :: ·)
    | .error e => .error e

def deserializeEntries : Entries → Except PyError Entries
  | [] => .ok []
  | (k, v) :: es =>
    match deserialize v with
    | .ok w => (deserializeEntries es).map ((k, w) :: ·)
    | .error e => .error e

/-- The `__var` entry, decoded by the `__type` of the dictionary. -/
def deserializeVar (type : Option Val) : Entries → Except PyError Val
  | [] => .error .keyError
  | (k, v) :: es =>
    if k = "__var" then
      match type with
      | some t => deserializeAs t.text? v
      | none => .error .keyError
    else deserializeVar type es

def deserializeAs (type : Option String) : Val → Except PyError Val
  | .dict es =>
    if type = some "dict" then (deserializeEntries es).map .dict
    else ofStrings type (es.map Prod.fst)
  | .list xs =>
    if type = some "set" then (deserializeList xs).bind toSet
    else if type = some "tuple" then (deserializeList xs).map .tuple
    else .error (if type = some "dict" then .attributeError else .typeError)
  | .prim p =>
    if type = some "datetime" then ofIsoformat fromIsoformat p
    else if type = some "timedelta" then ofSeconds p
    else
      match p with
      | .str s => ofStrings type (s.toList.map fun c => String.ofList [c])
      | _ => .error (if type = some "dict" then .attributeError else .typeError)
  | _ => .error .typeError

end

end Decoding

end Val

/-- A parser of datetimes that accepts no text. -/
def noIsoformat (_ : String) : Except PyError ℤ := .error .valueError

end YtScheduler.Serialization
