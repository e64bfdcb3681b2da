import Mathlib.Data.List.Pairwise
import YtScheduler.Serialization.RoundTrip

/-! When equal values have one text. Keys are sorted, so the order of a dictionary does not show;
the order of a set shows only where its elements cannot be sorted. -/

namespace YtScheduler.Serialization

/-! ### Texts -/

namespace Json

mutual

theorem loads_inj {j k : Json} (h : loads j = loads k) : j = k := by
  cases j with
  | arr xs =>
    cases k with
    | arr ys => exact congrArg Json.arr (loadsList_inj (Val.list.inj h))
    | _ => cases h
  | obj es =>
    cases k with
    | obj fs => exact congrArg Json.obj (loadsEntries_inj (Val.dict.inj h))
    | _ => cases h
  | _ =>
    cases k <;> cases h
    rfl

theorem loadsList_inj {xs ys : List Json} (h : loadsList xs = loadsList ys) : xs = ys := by
  cases xs with
  | nil =>
    cases ys with
    | nil => rfl
    | cons y ys => cases h
  | cons x xs =>
    cases ys with
    | nil => cases h
    | cons y ys =>
      obtain ⟨hx, hxs⟩ := List.cons.inj h
      rw [loads_inj hx, loadsList_inj hxs]

theorem loadsEntries_inj {es fs : List (String × Json)} (h : loadsEntries es = loadsEntries fs) :
    es = fs := by
  cases es with
  | nil =>
    cases fs with
    | nil => rfl
    | cons f fs => cases h
  | cons e es =>
    cases fs with
    | nil => cases h
    | cons f fs =>
      obtain ⟨k, j⟩ := e
      obtain ⟨k', j'⟩ := f
      obtain ⟨he, hes⟩ := List.cons.inj h
      obtain ⟨rfl, hj⟩ := Prod.mk.inj he
      rw [loads_inj hj, loadsEntries_inj hes]

end

end Json

namespace Val

theorem pairwise_sortKeys {α : Type} (es : List (String × α)) :
    (sortKeys es).Pairwise fun a b => a.1 ≤ b.1 := by
  have hkeys : ((sortKeys es).map Prod.fst).Pairwise fun a b : String => a ≤ b := by
    rw [sortKeys, List.map_insertionSort _ (fun a b : String => a ≤ b) Prod.fst es
      fun _ _ _ _ => Iff.rfl]
    exact List.pairwise_insertionSort _ _
  exact List.pairwise_map.mp hkeys

theorem sortKeys_sortKeys {α : Type} (es : List (String × α)) :
    sortKeys (sortKeys es) = sortKeys es := List.Pairwise.insertionSort_eq (pairwise_sortKeys es)

/-- Sorting forgets the order of entries with different keys. -/
theorem sortKeys_eq_iff {α : Type} {es fs : List (String × α)} (hkeys : (es.map Prod.fst).Nodup) :
    sortKeys es = sortKeys fs ↔ es.Perm fs := by
  constructor
  · intro h
    exact (perm_sortKeys es).symm.trans (h ▸ perm_sortKeys fs)
  · intro h
    refine List.Perm.eq_of_pairwise (fun a b ha hb hab hba => ?_) (pairwise_sortKeys es)
      (pairwise_sortKeys fs) (((perm_sortKeys es).trans h).trans (perm_sortKeys fs).symm)
    have hb' : b ∈ es := h.mem_iff.mpr (mem_sortKeys.mp hb)
    exact List.inj_on_of_nodup_map hkeys (mem_sortKeys.mp ha) hb' (le_antisymm hab hba)

/-- The encoder forgets the order of keys as well. -/
theorem plain_serialize_plain {v : Val} (h : IsJson v) :
    plain (plain v).serialize = plain v.serialize := by
  induction h with
  | @prim p h => rfl
  | attr t => rfl
  | @list xs _ ih =>
    rw [plain, plainList_eq, serialize, serialize, plain_serializeList, plain_serializeList, List.map_map]
    exact congrArg Val.list (List.map_congr_left ih)
  | @dict es _ ih =>
    have hentries : (sortKeys es).map (fun e => (e.1, plain (plain e.2).serialize)) =
        (sortKeys es).map fun e => (e.1, plain e.2.serialize) :=
      List.map_congr_left fun e he => congrArg (Prod.mk e.1) (ih e (mem_sortKeys.mp he))
    rw [plain_dict, serialize, serialize, plain_encode, plain_encode, plain_serializeEntries,
      plain_serializeEntries, sortKeys_map, sortKeys_sortKeys, List.map_map]
    exact congrArg (fun es => Val.dict [_, ("__var", .dict es)]) hentries

/-- The texts of two values are equal if the values are, but for the order of keys. -/
theorem dumps_eq_iff {x y : Val} (hx : IsJson x) (hy : IsJson y) :
    Json.dumps x.serialize = Json.dumps y.serialize ↔ plain x = plain y := by
  obtain ⟨j, hj, hlj⟩ := loads_dumps hx.serialize
  obtain ⟨k, hk, hlk⟩ := loads_dumps hy.serialize
  rw [hj, hk, Option.some_inj]
  constructor
  · rintro rfl
    have hread : deserialize noIsoformat (plain x.serialize) = .ok (plain x) :=
      deserialize_plain_serialize hx
    rw [← hlj, hlk, deserialize_plain_serialize hy] at hread
    exact (Except.ok.inj hread).symm
  · intro h
    refine Json.loads_inj ?_
    rw [hlj, hlk, ← plain_serialize_plain hx, ← plain_serialize_plain hy, h]

/-! ### Sets -/

theorem insertionSort_eq {κ : Type} [LinearOrder κ] (key : Prim → κ) {ps qs : List Prim}
    (hperm : ps.Perm qs) (hle : ∀ p ∈ ps, ∀ q ∈ ps, p.pyLe q = true ↔ key p ≤ key q)
    (hinj : ∀ p ∈ ps, ∀ q ∈ ps, key p = key q → p = q) :
    (ps.insertionSort fun p q => p.pyLe q = true) = qs.insertionSort fun p q => p.pyLe q = true := by
  have hsorted : ∀ {rs : List Prim}, rs.Perm ps →
      (rs.insertionSort fun p q => p.pyLe q = true).Pairwise fun p q => key p ≤ key q := by
    intro rs hrs
    rw [← List.pairwise_map, List.map_insertionSort _ (fun a b : κ => a ≤ b) key rs
      fun p hp q hq => hle p (hrs.mem_iff.mp hp) q (hrs.mem_iff.mp hq)]
    exact List.pairwise_insertionSort _ _
  have hmem : ∀ {rs : List Prim}, rs.Perm ps → ∀ p,
      p ∈ (rs.insertionSort fun p q => p.pyLe q = true) → p ∈ ps :=
    fun hrs p hp => hrs.mem_iff.mp ((List.perm_insertionSort _ _).mem_iff.mp hp)
  refine List.Perm.eq_of_pairwise (fun p q hp hq hpq hqp => ?_) (hsorted (.refl ps))
    (hsorted hperm.symm) ?_
  · exact hinj p (hmem (.refl ps) p hp) q (hmem hperm.symm q hq) (le_antisymm hpq hqp)
  · exact ((List.perm_insertionSort _ _).trans hperm).trans (List.perm_insertionSort _ _).symm

def isNum : Val → Bool
  | .prim p => p.num.isSome
  | _ => false

def isText : Val → Bool
  | .prim p => p.serialize.isStr
  | _ => false

/-- The text of a string. -/
def textOf : Prim → String
  | .str s => s
  | _ => ""

/-- `sorted` can sort the elements of the set. -/
def sortable (xs : List Val) : Bool := xs.length ≤ 1 || xs.all isNum || xs.all isText

/-- The values are primitives. -/
theorem exists_prims {P : Val → Bool} (hP : ∀ x, P x = true → ∃ p, x = .prim p) {xs : List Val}
    (h : xs.all P = true) : ∃ ps : List Prim, xs = ps.map .prim := by
  induction xs with
  | nil => exact ⟨[], rfl⟩
  | cons x xs ih =>
    rw [List.all_cons, Bool.and_eq_true] at h
    obtain ⟨p, rfl⟩ := hP x h.1
    obtain ⟨ps, rfl⟩ := ih h.2
    exact ⟨p :: ps, rfl⟩

theorem prim_of_isNum (x : Val) (h : x.isNum = true) : ∃ p, x = .prim p := by
  cases x with
  | prim p => exact ⟨p, rfl⟩
  | _ => cases h

theorem prim_of_isText (x : Val) (h : x.isText = true) : ∃ p, x = .prim p := by
  cases x with
  | prim p => exact ⟨p, rfl⟩
  | _ => cases h

theorem serializeList_prims (ps : List Prim) :
    serializeList (ps.map .prim) = (ps.map Prim.serialize).map .prim := by
  rw [serializeList_eq, List.map_map, List.map_map]
  rfl

theorem pyLe_of_num {p q : Prim} (hp : p.num.isSome = true) (hq : q.num.isSome = true) :
    p.pyLe q = true ↔ p.num.getD 0 ≤ q.num.getD 0 := by
  obtain ⟨x, hx⟩ := Option.isSome_iff_exists.mp hp
  obtain ⟨y, hy⟩ := Option.isSome_iff_exists.mp hq
  simp [Prim.pyLe, hx, hy]

theorem pyLe_of_str {p q : Prim} (hp : p.isStr = true) (hq : q.isStr = true) :
    p.pyLe q = true ↔ textOf p ≤ textOf q := by
  cases p with
  | str s =>
    cases q with
    | str t => simp [Prim.pyLe, Prim.num, textOf]
    | _ => cases hq
  | _ => cases hp

theorem serialize_of_num {p : Prim} (h : p.num.isSome = true) : p.serialize = p := by
  cases p with
  | float x =>
    cases x with
    | finite q => rfl
    | _ => cases h
  | _ => rfl

theorem sortSet_prims (ps : List Prim) :
    sortSet (ps.map .prim) = ((Prim.sorted? ps).getD ps).map .prim := by
  rw [sortSet, mapM_prim?]

theorem sorted?_of_all {ps : List Prim}
    (h : (ps.all fun p => p.num.isSome) = true ∨ ps.all Prim.isStr = true) :
    Prim.sorted? ps = some (ps.insertionSort fun p q => p.pyLe q = true) := by
  rw [Prim.sorted?, Bool.or_assoc, (Bool.or_eq_true _ _).mpr h, Bool.or_true, if_pos rfl]

/-- Equal sets of numbers are stored alike. -/
theorem sortSet_nums {ps qs : List Prim} (hnum : ∀ p ∈ ps, p.num.isSome = true) (hperm : ps.Perm qs)
    (hd : (ps.map Val.prim).Pairwise fun x y => x.pyEq y = false) :
    sortSet (serializeList (ps.map .prim)) = sortSet (serializeList (qs.map .prim)) := by
  have hnum' : ∀ q ∈ qs, q.num.isSome = true := fun q hq => hnum q (hperm.mem_iff.mpr hq)
  have hself : ∀ {ps : List Prim}, (∀ p ∈ ps, p.num.isSome = true) → ps.map Prim.serialize = ps :=
    fun h => (List.map_congr_left fun p hp => serialize_of_num (h p hp)).trans (List.map_id _)
  have hsymm : Std.Symm fun x y : Val => x.pyEq y = false :=
    ⟨fun x y h => (pyEq_comm y x).trans h⟩
  have heq := insertionSort_eq (fun p => p.num.getD 0) hperm
    (fun p hp q hq => pyLe_of_num (hnum p hp) (hnum q hq)) fun p hp q hq hkey => by
      by_contra hne
      have hpyEq : (Val.prim p).pyEq (.prim q) = false :=
        hd.forall (List.mem_map_of_mem hp) (List.mem_map_of_mem hq) fun he => hne (Val.prim.inj he)
      obtain ⟨x, hx⟩ := Option.isSome_iff_exists.mp (hnum p hp)
      obtain ⟨y, hy⟩ := Option.isSome_iff_exists.mp (hnum q hq)
      rw [hx, hy, Option.getD_some, Option.getD_some] at hkey
      rw [pyEq, Prim.pyEq, hx, hy] at hpyEq
      exact of_decide_eq_false hpyEq hkey
  rw [serializeList_prims, serializeList_prims, hself hnum, hself hnum', sortSet_prims, sortSet_prims,
    sorted?_of_all (Or.inl (List.all_eq_true.mpr hnum)),
    sorted?_of_all (Or.inl (List.all_eq_true.mpr hnum')), heq, Option.getD_some, Option.getD_some]

/-- Equal sets of strings are stored alike. -/
theorem sortSet_texts {ps qs : List Prim} (hstr : ∀ p ∈ ps, p.serialize.isStr = true)
    (hperm : ps.Perm qs) :
    sortSet (serializeList (ps.map .prim)) = sortSet (serializeList (qs.map .prim)) := by
  have hperm' := hperm.map Prim.serialize
  have hall : ∀ p ∈ ps.map Prim.serialize, p.isStr = true := List.forall_mem_map.mpr hstr
  have hall' : ∀ q ∈ qs.map Prim.serialize, q.isStr = true :=
    fun q hq => hall q (hperm'.mem_iff.mpr hq)
  have hinj : ∀ p q : Prim, p.isStr = true → q.isStr = true → textOf p = textOf q → p = q := by
    intro p q hp hq hkey
    cases p with
    | str s =>
      cases q with
      | str t => exact congrArg Prim.str hkey
      | _ => cases hq
    | _ => cases hp
  have heq := insertionSort_eq textOf hperm' (fun p hp q hq => pyLe_of_str (hall p hp) (hall q hq))
    fun p hp q hq hkey => hinj p q (hall p hp) (hall q hq) hkey
  rw [serializeList_prims, serializeList_prims, sortSet_prims, sortSet_prims,
    sorted?_of_all (Or.inr (List.all_eq_true.mpr hall)),
    sorted?_of_all (Or.inr (List.all_eq_true.mpr hall')), heq, Option.getD_some, Option.getD_some]

/-- Equal sets that can be sorted are stored alike. -/
theorem sortSet_eq {xs ys : List Val} (hd : xs.Pairwise fun x y => x.pyEq y = false)
    (hperm : xs.Perm ys) (hs : sortable xs = true) :
    sortSet (serializeList xs) = sortSet (serializeList ys) := by
  rw [sortable, Bool.or_eq_true, Bool.or_eq_true, decide_eq_true_iff] at hs
  rcases hs with (hs | hs) | hs
  · have heq : xs = ys := by
      match xs, hs, hperm with
      | [], _, hperm => exact hperm.nil_eq
      | [x], _, hperm => exact List.singleton_perm.mp hperm
    rw [heq]
  · obtain ⟨ps, rfl⟩ := exists_prims prim_of_isNum hs
    obtain ⟨qs, hqs, rfl⟩ := exists_perm_map hperm.symm
    rw [List.all_map] at hs
    exact sortSet_nums (List.all_eq_true.mp hs) hqs.symm hd
  · obtain ⟨ps, rfl⟩ := exists_prims prim_of_isText hs
    obtain ⟨qs, hqs, rfl⟩ := exists_perm_map hperm.symm
    rw [List.all_map] at hs
    exact sortSet_texts (List.all_eq_true.mp hs) hqs.symm

/-- A hashable value that is stored as a primitive is one. -/
theorem prim_of_serialize {x : Val} {p : Prim} (hx : Formed x) (h : x.serialize = .prim p) :
    ∃ q, x = .prim q := by
  cases hx with
  | prim q => exact ⟨q, rfl⟩
  | _ => cases h

/-- A set that cannot be sorted is stored in the order in which it is iterated. -/
theorem sortSet_of_not_sortable {xs : List Val} (hx : ∀ x ∈ xs, Formed x)
    (hs : sortable xs = false) : sortSet (serializeList xs) = serializeList xs := by
  rw [sortSet]
  split
  · next rs hrs =>
    have hprims : ∃ ps : List Prim, xs = ps.map .prim := by
      have hmap := eq_map_prim hrs
      rw [serializeList_eq] at hmap
      clear * - hx hmap
      induction xs generalizing rs with
      | nil => exact ⟨[], rfl⟩
      | cons x xs ih =>
        rw [List.forall_mem_cons] at hx
        cases rs with
        | nil => cases hmap
        | cons r rs =>
          obtain ⟨hr, htail⟩ := List.cons.inj hmap
          obtain ⟨p, rfl⟩ := prim_of_serialize hx.1 hr
          obtain ⟨ps, rfl⟩ := ih hx.2 rs htail
          exact ⟨p :: ps, rfl⟩
    obtain ⟨ps, rfl⟩ := hprims
    rw [serializeList_prims, mapM_prim?] at hrs
    cases hrs
    have hnum : ∀ p : Prim, p.serialize.num.isSome = p.num.isSome := by
      intro p
      cases p with
      | float x => cases x <;> rfl
      | _ => rfl
    have hnone : Prim.sorted? (ps.map Prim.serialize) = none := by
      rw [sortable, List.length_map, List.all_map, List.all_map] at hs
      rw [Prim.sorted?, List.length_map, List.all_map, List.all_map, if_neg]
      rw [Bool.not_eq_true, ← hs]
      have hfun : (fun p : Prim => p.num.isSome) ∘ Prim.serialize = isNum ∘ Val.prim :=
        funext hnum
      rw [hfun]
      rfl
    rw [hnone, Option.getD_none, serializeList_prims]
  · rfl

theorem plain_encode_inj {x y : Val} {type type' : AttrTypes} :
    plain (encode x type) = plain (encode y type') ↔ type.value = type'.value ∧ plain x = plain y := by
  rw [plain_encode, plain_encode]
  simp

theorem totalSeconds_inj {m n : ℤ} (h : totalSeconds m = totalSeconds n) : m = n := by
  rw [← ofSeconds_totalSeconds m, h, ofSeconds_totalSeconds]

/-! ### Values -/

mutual

/-- Members of sets that are stored alike: they are equal, but that `nan` and the infinities are
stored as strings. -/
def Alike : Val → Val → Prop
  | .prim p, .prim q => p.serialize = q.serialize
  | .tuple xs, .tuple ys => AlikeList xs ys
  | .datetime m, .datetime n => m = n
  | .timedelta m, .timedelta n => m = n
  | _, _ => False

def AlikeList : List Val → List Val → Prop
  | [], [] => True
  | x :: xs, y :: ys => Alike x y ∧ AlikeList xs ys
  | _, _ => False

end

mutual

/-- Wherever there is a set in both values that cannot be sorted, it is iterated in the same order. -/
def SameOrder : Val → Val → Prop
  | .list xs, .list ys => SameOrderList xs ys
  | .tuple xs, .tuple ys => SameOrderList xs ys
  | .set xs, .set ys => sortable xs = false → AlikeList xs ys
  | .dict es, .dict fs => SameOrderEntries es fs
  | _, _ => True

def SameOrderList : List Val → List Val → Prop
  | x :: xs, y :: ys => SameOrder x y ∧ SameOrderList xs ys
  | _, _ => True

def SameOrderEntries : Entries → Entries → Prop
  | [], _ => True
  | (k, v) :: es, fs => (∀ w, (k, w) ∈ fs → SameOrder v w) ∧ SameOrderEntries es fs

end

theorem sameOrderEntries_iff {es fs : Entries} :
    SameOrderEntries es fs ↔ ∀ e ∈ es, ∀ w, (e.1, w) ∈ fs → SameOrder e.2 w := by
  induction es with
  | nil => simp [SameOrderEntries]
  | cons e es ih => rw [SameOrderEntries, ih, List.forall_mem_cons]

theorem map_eq_iff_sameOrderList {f : Val → Val} {xs ys : List Val} (hsame : SameList xs ys)
    (h : ∀ x ∈ xs, ∀ y ∈ ys, Same x y → (f x = f y ↔ SameOrder x y)) :
    xs.map f = ys.map f ↔ SameOrderList xs ys := by
  induction xs generalizing ys with
  | nil =>
    cases ys with
    | nil => exact iff_of_true rfl trivial
    | cons y ys => exact hsame.elim
  | cons x xs ih =>
    cases ys with
    | nil => exact hsame.elim
    | cons y ys =>
      rw [List.map_cons, List.map_cons, List.cons.injEq, SameOrderList,
        h x List.mem_cons_self y List.mem_cons_self hsame.1,
        ih hsame.2 fun a ha b hb => h a (List.mem_cons_of_mem _ ha) b (List.mem_cons_of_mem _ hb)]

theorem map_eq_iff_alikeList {f : Val → Val} {xs ys : List Val}
    (h : ∀ x ∈ xs, ∀ y ∈ ys, f x = f y ↔ Alike x y) : xs.map f = ys.map f ↔ AlikeList xs ys := by
  induction xs generalizing ys with
  | nil => cases ys <;> simp [AlikeList]
  | cons x xs ih =>
    cases ys with
    | nil => simp [AlikeList]
    | cons y ys =>
      rw [List.map_cons, List.map_cons, List.cons.injEq, AlikeList,
        h x List.mem_cons_self y List.mem_cons_self,
        ih fun a ha b hb => h a (List.mem_cons_of_mem _ ha) b (List.mem_cons_of_mem _ hb)]

/-- Hashable values have one encoding if they are alike. -/
theorem encoded_eq_iff_alike {v w : Val} (hv : Formed v) (hw : Formed w) (hh : v.hashable = true) :
    plain v.serialize = plain w.serialize ↔ Alike v w := by
  have hseconds : ∀ {m n : ℤ}, plain (.prim (.float (.finite (totalSeconds m)))) =
      plain (.prim (.float (.finite (totalSeconds n)))) ↔ m = n := by
    intro m n
    simp only [plain, Val.prim.injEq, Prim.float.injEq, PyFloat.finite.injEq]
    exact ⟨totalSeconds_inj, congrArg totalSeconds⟩
  induction hv generalizing w with
  | prim p =>
    cases hw with
    | prim q => simp [serialize, plain, Alike]
    | _ => simp [serialize, plain_encode, plain, Alike]
  | @tuple xs _ ih =>
    cases hw with
    | @tuple ys hys =>
      rw [serialize, serialize, plain_encode_inj, and_iff_right rfl, plain_serializeList,
        plain_serializeList, Val.list.injEq]
      exact map_eq_iff_alikeList fun x hx y hy => ih x hx (hys y hy) (hashableList_iff.mp hh x hx)
    | _ => simp [serialize, plain_encode, plain, AttrTypes.value, Alike]
  | datetime m =>
    cases hw with
    | datetime n => rw [serialize, serialize, plain_encode_inj, and_iff_right rfl, hseconds, Alike]
    | _ => simp [serialize, plain_encode, plain, AttrTypes.value, Alike]
  | timedelta m =>
    cases hw with
    | timedelta n => rw [serialize, serialize, plain_encode_inj, and_iff_right rfl, hseconds, Alike]
    | _ => simp [serialize, plain_encode, plain, AttrTypes.value, Alike]
  | list _ _ => cases hh
  | set _ _ _ _ => cases hh
  | dict _ _ _ => cases hh

/-- Dictionaries with the same keys and equal values under each key are the same when sorted. -/
theorem map_sortKeys_eq_iff {f : Val → Val} {es fs : Entries} (hkeys : (es.map Prod.fst).Nodup)
    (hperm : (es.map Prod.fst).Perm (fs.map Prod.fst)) :
    (sortKeys es).map (fun e => (e.1, f e.2)) = (sortKeys fs).map (fun e => (e.1, f e.2)) ↔
      ∀ e ∈ es, ∀ w, (e.1, w) ∈ fs → f e.2 = f w := by
  have hmap : ∀ es : Entries, (es.map fun e => (e.1, f e.2)).map Prod.fst = es.map Prod.fst := by
    intro es
    rw [List.map_map]
    rfl
  have hkeys' := hperm.nodup_iff.mp hkeys
  rw [← hmap] at hkeys hkeys'
  rw [← sortKeys_map, ← sortKeys_map, sortKeys_eq_iff hkeys]
  constructor
  · intro h e he w hw
    have hmem : (e.1, f e.2) ∈ fs.map fun e => (e.1, f e.2) :=
      h.mem_iff.mp (List.mem_map_of_mem he)
    have heq : (e.1, f e.2) = (e.1, f w) :=
      List.inj_on_of_nodup_map hkeys' hmem (List.mem_map_of_mem hw) rfl
    exact (Prod.mk.inj heq).2
  · intro h
    rw [List.perm_ext_iff_of_nodup hkeys.of_map hkeys'.of_map]
    intro d
    rw [List.mem_map, List.mem_map]
    constructor
    · rintro ⟨e, he, rfl⟩
      obtain ⟨d, hd, hkey⟩ := List.mem_map.mp (hperm.mem_iff.mp (List.mem_map_of_mem he))
      exact ⟨d, hd, by rw [h e he d.2 (hkey ▸ hd), hkey]⟩
    · rintro ⟨d, hd, rfl⟩
      obtain ⟨e, he, hkey⟩ := List.mem_map.mp (hperm.mem_iff.mpr (List.mem_map_of_mem hd))
      exact ⟨e, he, by rw [h e he d.2 (hkey ▸ hd), hkey]⟩

/-- Equal values are stored alike exactly if their sets that cannot be sorted have one order. -/
theorem encoded_eq_iff {v w : Val} (hv : Formed v) (hw : Formed w) (hsame : Same v w) :
    plain v.serialize = plain w.serialize ↔ SameOrder v w := by
  induction hv generalizing w with
  | prim p =>
    cases w with
    | prim q =>
      cases (show p = q from hsame)
      exact iff_of_true rfl trivial
    | _ => exact hsame.elim
  | @list xs _ ih =>
    cases hw with
    | @list ys hys =>
      rw [serialize, serialize, plain_serializeList, plain_serializeList, Val.list.injEq]
      exact map_eq_iff_sameOrderList hsame fun x hx y hy hxy => ih x hx (hys y hy) hxy
    | _ => exact hsame.elim
  | @tuple xs _ ih =>
    cases hw with
    | @tuple ys hys =>
      rw [serialize, serialize, plain_encode_inj, and_iff_right rfl, plain_serializeList,
        plain_serializeList, Val.list.injEq]
      exact map_eq_iff_sameOrderList hsame fun x hx y hy hxy => ih x hx (hys y hy) hxy
    | _ => exact hsame.elim
  | datetime m =>
    cases w with
    | datetime n =>
      cases (show m = n from hsame)
      exact iff_of_true rfl trivial
    | _ => exact hsame.elim
  | timedelta m =>
    cases w with
    | timedelta n =>
      cases (show m = n from hsame)
      exact iff_of_true rfl trivial
    | _ => exact hsame.elim
  | @set xs hxs hh hd _ =>
    cases hw with
    | @set ys hys _ _ =>
      have hperm : xs.Perm ys := hsame
      rw [serialize, serialize, plain_encode_inj, and_iff_right rfl, SameOrder]
      cases hs : sortable xs with
      | true =>
        rw [sortSet_eq hd hperm hs]
        exact iff_of_true rfl fun h => by cases h
      | false =>
        have hs' : sortable ys = false := by
          rw [← hs, sortable, sortable, hperm.length_eq, hperm.all_eq, hperm.all_eq]
        rw [sortSet_of_not_sortable hxs hs, sortSet_of_not_sortable hys hs', plain_serializeList,
          plain_serializeList, Val.list.injEq, forall_prop_of_true rfl]
        exact map_eq_iff_alikeList fun x hx y hy =>
          encoded_eq_iff_alike (hxs x hx) (hys y hy) (hh x hx)
    | _ => exact hsame.elim
  | @dict es hes hkeys ih =>
    cases hw with
    | @dict fs hfs _ =>
      obtain ⟨hperm, hentries⟩ := hsame
      rw [serialize, serialize, plain_encode_inj, and_iff_right rfl, plain_serializeEntries,
        plain_serializeEntries, Val.dict.injEq, SameOrder, sameOrderEntries_iff]
      rw [Val.sameEntries_iff] at hentries
      refine (map_sortKeys_eq_iff (f := fun x => plain x.serialize) hkeys hperm).trans ?_
      refine forall₂_congr fun e he => forall₂_congr fun x hx => ?_
      obtain ⟨y, hy, hsame⟩ := hentries e he
      have heq : (e.1, y) = (e.1, x) :=
        List.inj_on_of_nodup_map (hperm.nodup_iff.mp hkeys) hy hx rfl
      cases (Prod.mk.inj heq).2
      exact ih e he (hfs _ hx) hsame
    | _ => exact hsame.elim

end Val

end YtScheduler.Serialization
