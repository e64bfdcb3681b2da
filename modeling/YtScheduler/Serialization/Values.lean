import Mathlib.Data.Rat.Floor
import Mathlib.Data.List.Perm.Basic
import Mathlib.Data.List.Sort
import Mathlib.Data.String.Basic

/-! The Python values a user spec is made of, and what `json` makes of them. A set and a
dictionary are lists in some order; `Same` is equality of values, which does not see
that order. -/

namespace YtScheduler.Serialization

inductive PyFloat
  | finite (q : ℚ)
  | nan
  | inf
  | negInf
  deriving DecidableEq

/-- The instances of `_primitive_types`, and `None`. -/
inductive Prim
  | null
  | bool (b : Bool)
  | int (n : ℤ)
  | float (x : PyFloat)
  | str (s : String)
  deriving DecidableEq

/-- The members of `AttrTypes` that this code writes or reads. -/
inductive AttrTypes
  | op | datetime | timedelta | dict | set | tuple
  deriving DecidableEq

def AttrTypes.value : AttrTypes → String
  | .op => "operator"
  | .datetime => "datetime"
  | .timedelta => "timedelta"
  | .dict => "dict"
  | .set => "set"
  | .tuple => "tuple"

/-- A datetime is the number of microseconds of its timestamp, a time delta the number of those it
lasts. The members of a set are in the order in which it is iterated. -/
inductive Val
  | prim (p : Prim)
  /-- A member of `AttrTypes`, which is a string as well. -/
  | attr (t : AttrTypes)
  | list (xs : List Val)
  | tuple (xs : List Val)
  | datetime (micros : ℤ)
  | timedelta (micros : ℤ)
  | set (xs : List Val)
  | dict (es : List (String × Val))

/-- The entries of a dictionary with string keys. -/
abbrev Entries := List (String × Val)

/-- The text of a JSON document, read as the value it stands for. -/
inductive Json
  | null
  | bool (b : Bool)
  | int (n : ℤ)
  | float (x : PyFloat)
  | str (s : String)
  | arr (xs : List Json)
  | obj (es : List (String × Json))

/-! ### Lists of values -/

namespace Val

/-- What holds of a value when it holds of its parts holds of every value. -/
theorem induct {P : Val → Prop} (prim : ∀ p, P (.prim p)) (attr : ∀ t, P (.attr t))
    (list : ∀ xs, (∀ x ∈ xs, P x) → P (.list xs)) (tuple : ∀ xs, (∀ x ∈ xs, P x) → P (.tuple xs))
    (datetime : ∀ n, P (.datetime n)) (timedelta : ∀ n, P (.timedelta n))
    (set : ∀ xs, (∀ x ∈ xs, P x) → P (.set xs))
    (dict : ∀ es, (∀ e ∈ es, P e.2) → P (.dict es)) (v : Val) : P v := by
  apply Val.rec (motive_1 := P) (motive_2 := fun xs => ∀ x ∈ xs, P x)
    (motive_3 := fun es => ∀ e ∈ es, P e.2) (motive_4 := fun e => P e.2)
  · exact prim
  · exact attr
  · exact list
  · exact tuple
  · exact datetime
  · exact timedelta
  · exact set
  · exact dict
  · exact fun _ h => nomatch h
  · intro x xs hx hxs y hy
    rcases List.mem_cons.mp hy with rfl | hy
    · exact hx
    · exact hxs y hy
  · exact fun _ h => nomatch h
  · intro e es he hes d hd
    rcases List.mem_cons.mp hd with rfl | hd
    · exact he
    · exact hes d hd
  · exact fun _ _ h => h

mutual

/-- Whether a value can be looked up in a dictionary. -/
def hashable : Val → Bool
  | .prim _ => true
  | .attr _ => true
  | .datetime _ => true
  | .timedelta _ => true
  | .tuple xs => hashableList xs
  | _ => false

def hashableList : List Val → Bool
  | [] => true
  | x :: xs => hashable x && hashableList xs

end

/-! ### Equality -/

mutual

/-- Equal values: sets have the same elements, which have no sets or dictionaries in them, and
dictionaries the same keys with equal values. -/
def Same : Val → Val → Prop
  | .prim p, .prim q => p = q
  | .attr t, .attr u => t = u
  | .list xs, .list ys => SameList xs ys
  | .tuple xs, .tuple ys => SameList xs ys
  | .datetime m, .datetime n => m = n
  | .timedelta m, .timedelta n => m = n
  | .set xs, .set ys => xs.Perm ys
  | .dict es, .dict fs => (es.map Prod.fst).Perm (fs.map Prod.fst) ∧ SameEntries es fs
  | _, _ => False

def SameList : List Val → List Val → Prop
  | [], [] => True
  | x :: xs, y :: ys => Same x y ∧ SameList xs ys
  | _, _ => False

/-- Every entry of the first dictionary has an equal one in the second. -/
def SameEntries : Entries → Entries → Prop
  | [], _ => True
  | (k, v) :: es, fs => (∃ w, (k, w) ∈ fs ∧ Same v w) ∧ SameEntries es fs

end

theorem sameList_iff {xs ys : List Val} : SameList xs ys ↔ List.Forall₂ Same xs ys := by
  induction xs generalizing ys with
  | nil => cases ys <;> simp [SameList]
  | cons x xs ih =>
    cases ys with
    | nil => simp [SameList]
    | cons y ys => simp [SameList, ih]

theorem sameEntries_iff {es fs : Entries} :
    SameEntries es fs ↔ ∀ e ∈ es, ∃ w, (e.1, w) ∈ fs ∧ Same e.2 w := by
  induction es with
  | nil => simp [SameEntries]
  | cons e es ih => simp [SameEntries, ih]

theorem same_refl (v : Val) : Same v v := by
  induction v using induct with
  | list xs ih => exact sameList_iff.mpr (List.forall₂_same.mpr ih)
  | tuple xs ih => exact sameList_iff.mpr (List.forall₂_same.mpr ih)
  | set xs _ => exact List.Perm.refl xs
  | dict es ih => exact ⟨.refl _, sameEntries_iff.mpr fun e he => ⟨e.2, he, ih e he⟩⟩
  | _ => rfl

end Val

/-- Equal dictionaries. -/
def SameDict (es fs : Entries) : Prop := Val.Same (.dict es) (.dict fs)

/-! ### Sorting -/

/-- A dictionary with its keys in order. -/
def sortKeys {α : Type} (es : List (String × α)) : List (String × α) :=
  es.insertionSort fun a b => a.1 ≤ b.1

theorem perm_sortKeys {α : Type} (es : List (String × α)) : (sortKeys es).Perm es :=
  List.perm_insertionSort _ es

theorem mem_sortKeys {α : Type} {es : List (String × α)} {e : String × α} :
    e ∈ sortKeys es ↔ e ∈ es := (perm_sortKeys es).mem_iff

/-- Sorting looks at the keys only. -/
theorem sortKeys_map {α β : Type} (f : α → β) (es : List (String × α)) :
    sortKeys (es.map fun e => (e.1, f e.2)) = (sortKeys es).map fun e => (e.1, f e.2) :=
  (List.map_insertionSort _ _ (fun e : String × α => (e.1, f e.2)) es
    (fun _ _ _ _ => Iff.rfl)).symm

/-! ### `json` -/

namespace Json

def ofPrim : Prim → Json
  | .null => .null
  | .bool b => .bool b
  | .int n => .int n
  | .float x => .float x
  | .str s => .str s

mutual

/-- `json.dumps(..., sort_keys=True)`: there is no JSON for a set, a datetime or a time delta. -/
def dumps : Val → Option Json
  | .prim p => some (ofPrim p)
  | .attr t => some (.str t.value)
  | .list xs => (dumpsList xs).map .arr
  | .tuple xs => (dumpsList xs).map .arr
  | .datetime _ => none
  | .timedelta _ => none
  | .set _ => none
  | .dict es => (dumpsEntries es).map fun es => .obj (sortKeys es)

def dumpsList : List Val → Option (List Json)
  | [] => some []
  | x :: xs => (dumps x).bind fun y => (dumpsList xs).map (y :: ·)

def dumpsEntries : Entries → Option (List (String × Json))
  | [] => some []
  | (k, v) :: es => (dumps v).bind fun j => (dumpsEntries es).map ((k, j) :: ·)

end

mutual

/-- `json.loads`. -/
def loads : Json → Val
  | .null => .prim .null
  | .bool b => .prim (.bool b)
  | .int n => .prim (.int n)
  | .float x => .prim (.float x)
  | .str s => .prim (.str s)
  | .arr xs => .list (loadsList xs)
  | .obj es => .dict (loadsEntries es)

def loadsList : List Json → List Val
  | [] => []
  | x :: xs => loads x :: loadsList xs

def loadsEntries : List (String × Json) → Entries
  | [] => []
  | (k, j) :: es => (k, loads j) :: loadsEntries es

end

theorem loadsList_eq (xs : List Json) : loadsList xs = xs.map loads := by
  induction xs with
  | nil => rfl
  | cons x xs ih => rw [loadsList, ih, List.map_cons]

theorem loadsEntries_eq (es : List (String × Json)) :
    loadsEntries es = es.map fun e => (e.1, loads e.2) := by
  induction es with
  | nil => rfl
  | cons e es ih => rw [loadsEntries, ih, List.map_cons]

end Json

end YtScheduler.Serialization
