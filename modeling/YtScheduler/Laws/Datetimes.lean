import YtScheduler.Serialization.RoundTrip

/-! Decoding what was encoded. Every kind of value comes back but datetimes: they are stored as a
number of seconds, and read as the text of `isoformat()`. -/

namespace YtScheduler

namespace Serialization

namespace Val

/-- `to_json`. -/
def toJson (v : Val) : Option Json := Json.dumps v.serialize

/-- `from_json`. -/
def fromJson (iso : String → Except PyError ℤ) (repr : Json) : Except PyError Val :=
  deserialize iso (Json.loads repr)

mutual

/-- There is a datetime in the value. -/
def hasDatetime : Val → Bool
  | .datetime _ => true
  | .list xs => hasDatetimeList xs
  | .tuple xs => hasDatetimeList xs
  | .set xs => hasDatetimeList xs
  | .dict es => hasDatetimeEntries es
  | _ => false

def hasDatetimeList : List Val → Bool
  | [] => false
  | x :: xs => hasDatetime x || hasDatetimeList xs

def hasDatetimeEntries : Entries → Bool
  | [] => false
  | (_, v) :: es => hasDatetime v || hasDatetimeEntries es

end

theorem hasDatetimeList_iff {xs : List Val} :
    hasDatetimeList xs = true ↔ ∃ x ∈ xs, x.hasDatetime = true := by
  induction xs with
  | nil => simp [hasDatetimeList]
  | cons x xs ih => simp [hasDatetimeList, ih]

theorem hasDatetimeEntries_iff {es : Entries} :
    hasDatetimeEntries es = true ↔ ∃ e ∈ es, e.2.hasDatetime = true := by
  induction es with
  | nil => simp [hasDatetimeEntries]
  | cons e es ih => simp [hasDatetimeEntries, ih]

/-- A value without datetimes is one of a user spec. -/
theorem Built.storable {v : Val} (h : Built v) (hv : v.hasDatetime = false) : Storable v := by
  have hlist : ∀ {xs : List Val}, hasDatetimeList xs = false → ∀ x ∈ xs, x.hasDatetime = false := by
    intro xs hxs x hx
    by_contra hne
    rw [hasDatetimeList_iff.mpr ⟨x, hx, eq_true_of_ne_false hne⟩] at hxs
    cases hxs
  induction h with
  | prim h => exact .prim h
  | list _ ih => exact .list fun x hx => ih x hx (hlist hv x hx)
  | tuple _ ih => exact .tuple fun x hx => ih x hx (hlist hv x hx)
  | datetime micros => cases hv
  | timedelta micros => exact .timedelta micros
  | set _ hh hd ih => exact .set (fun x hx => ih x hx (hlist hv x hx)) hh hd
  | dict _ hd ih =>
    refine .dict (fun e he => ih e he ?_) hd
    by_contra hne
    rw [hasDatetime, hasDatetimeEntries_iff.mpr ⟨e, he, eq_true_of_ne_false hne⟩] at hv
    cases hv

/-! ### Where a datetime is read -/

section Errors

variable {iso : String → Except PyError ℤ} {f : Val → Val} {err : PyError}

/-- The value decodes to something, or to this error. -/
def OkOr (iso : String → Except PyError ℤ) (err : PyError) (v : Val) : Prop :=
  (∃ w, deserialize iso v = .ok w) ∨ deserialize iso v = .error err

theorem deserializeList_error {xs : List Val} (h : ∀ x ∈ xs, OkOr iso err (f x))
    (hx : ∃ x ∈ xs, deserialize iso (f x) = .error err) :
    deserializeList iso (xs.map f) = .error err := by
  induction xs with
  | nil =>
    obtain ⟨x, hx, _⟩ := hx
    cases hx
  | cons x xs ih =>
    rw [List.forall_mem_cons] at h
    rw [List.map_cons, deserializeList]
    rcases h.1 with ⟨w, hw⟩ | herr
    · obtain ⟨y, hy, herr⟩ := hx
      rcases List.mem_cons.mp hy with rfl | hy
      · rw [hw] at herr
        cases herr
      · rw [hw, ih h.2 ⟨y, hy, herr⟩]
        rfl
    · rw [herr]

theorem deserializeEntries_error (es : Entries) (h : ∀ e ∈ es, OkOr iso err (f e.2))
    (hx : ∃ e ∈ es, deserialize iso (f e.2) = .error err) :
    deserializeEntries iso (es.map fun e => (e.1, f e.2)) = .error err := by
  induction es with
  | nil =>
    obtain ⟨e, he, _⟩ := hx
    cases he
  | cons e es ih =>
    rw [List.forall_mem_cons] at h
    rw [List.map_cons, deserializeEntries]
    rcases h.1 with ⟨w, hw⟩ | herr
    · obtain ⟨d, hd, herr⟩ := hx
      rcases List.mem_cons.mp hd with rfl | hd
      · rw [hw] at herr
        cases herr
      · rw [hw, ih h.2 ⟨d, hd, herr⟩]
        rfl
    · rw [herr]

end Errors

/-- A value with a datetime cannot be read back. -/
theorem Built.deserialize_error {iso : String → Except PyError ℤ} {v : Val} (h : Built v)
    (hv : v.hasDatetime = true) : deserialize iso (plain v.serialize) = .error .typeError := by
  have hokOr : ∀ {x : Val}, Built x →
      (x.hasDatetime = true → deserialize iso (plain x.serialize) = .error .typeError) →
      OkOr iso .typeError (plain x.serialize) := by
    intro x hx ih
    cases hd : x.hasDatetime with
    | true => exact Or.inr (ih hd)
    | false =>
      obtain ⟨w, hw, _⟩ := (hx.storable hd).roundTrip iso
      exact Or.inl ⟨w, hw⟩
  have hlist : ∀ {xs zs : List Val}, (∀ x ∈ xs, Built x) → zs.Perm xs →
      (∀ x ∈ xs, x.hasDatetime = true → deserialize iso (plain x.serialize) = .error .typeError) →
      hasDatetimeList xs = true →
      deserializeList iso ((zs.map serialize).map plain) = .error .typeError := by
    intro xs zs hb hperm ih hxs
    obtain ⟨x, hx, hd⟩ := hasDatetimeList_iff.mp hxs
    rw [List.map_map]
    refine deserializeList_error (f := plain ∘ serialize) (fun y hy => ?_)
      ⟨x, hperm.mem_iff.mpr hx, ih x hx hd⟩
    exact hokOr (hb y (hperm.mem_iff.mp hy)) (ih y (hperm.mem_iff.mp hy))
  induction h with
  | prim h => cases hv
  | @list xs hb ih =>
    rw [serialize, serializeList_eq, plain, plainList_eq, deserialize, hlist hb (.refl xs) ih hv]
    rfl
  | @tuple xs hb ih =>
    rw [serialize, deserialize_plain_encode, serializeList_eq, plain, plainList_eq, deserializeAs,
      if_neg (by decide), if_pos (show some AttrTypes.tuple.value = some "tuple" from rfl),
      hlist hb (.refl xs) ih hv]
    rfl
  | datetime micros =>
    rw [serialize, deserialize_plain_encode]
    show deserializeAs iso (some "datetime") (.prim (.float (.finite (totalSeconds micros)))) = _
    rw [deserializeAs, if_pos rfl]
    · rfl
    · intro _ h
      cases h
  | timedelta micros => cases hv
  | @set xs hb _ _ ih =>
    obtain ⟨zs, hperm, hstored⟩ := exists_stored xs
    rw [serialize, deserialize_plain_encode, hstored, plain, plainList_eq, deserializeAs,
      if_pos (show some AttrTypes.set.value = some "set" from rfl), hlist hb hperm ih hv]
    rfl
  | @dict es hb _ ih =>
    obtain ⟨e, he, hd⟩ := hasDatetimeEntries_iff.mp hv
    have herr := deserializeEntries_error (sortKeys es) (f := fun x => plain x.serialize)
      (fun d hd => hokOr (hb d (mem_sortKeys.mp hd)) (ih d (mem_sortKeys.mp hd)))
      ⟨e, mem_sortKeys.mpr he, ih e he hd⟩
    rw [serialize, deserialize_plain_encode, plain_serializeEntries, deserializeAs,
      if_pos (show some AttrTypes.dict.value = some "dict" from rfl)]
    exact congrArg (Except.map Val.dict) herr

end Val

end Serialization

open Serialization

/-- A value is read back equal exactly if there is no datetime in it. -/
theorem decode_undoes_encode_iff (iso : String → Except PyError ℤ) {v : Val} (h : v.Built) :
    ∃ repr, v.toJson = some repr ∧
      ((∃ w, Val.fromJson iso repr = .ok w ∧ v.Same w) ↔ v.hasDatetime = false) := by
  obtain ⟨repr, hrepr, hloads⟩ := Val.loads_dumps h.isJson
  refine ⟨repr, hrepr, ?_⟩
  rw [Val.fromJson, hloads]
  cases hv : v.hasDatetime with
  | true =>
    rw [h.deserialize_error hv]
    simp
  | false =>
    exact iff_of_true ((h.storable hv).roundTrip iso) rfl

/-- A tuple, and a set with a time delta and a tuple in it. -/
def nested : Val :=
  .dict [("limits", .tuple [.prim (.int 1), .prim .null]),
    ("kinds", .set [.timedelta 1500000, .tuple [.prim (.str "map")]])]

theorem nested_built : nested.Built := by
  have hlist : ∀ {x y : Val}, x.Built → y.Built → ∀ z ∈ [x, y], z.Built := by
    intro x y hx hy
    simp only [List.forall_mem_cons]
    exact ⟨hx, hy, List.forall_mem_nil _⟩
  have hkinds : (Val.set [.timedelta 1500000, .tuple [.prim (.str "map")]]).Built := by
    refine .set (hlist (.timedelta _) (.tuple ?_)) (by decide) (by decide)
    simp only [List.forall_mem_cons]
    exact ⟨.prim rfl, List.forall_mem_nil _⟩
  refine .dict ?_ (by decide)
  simp only [List.forall_mem_cons]
  exact ⟨.tuple (hlist (.prim rfl) (.prim rfl)), hkinds, List.forall_mem_nil _⟩

theorem nested_decoded_iff :
    ∃ repr, nested.toJson = some repr ∧
      ((∃ w, Val.fromJson noIsoformat repr = .ok w ∧ nested.Same w) ↔ nested.hasDatetime = false) :=
  decode_undoes_encode_iff noIsoformat nested_built

/-- A datetime is not read back. -/
theorem datetime_not_decoded :
    ¬∃ repr w, (Val.datetime 0).toJson = some repr ∧ Val.fromJson noIsoformat repr = .ok w ∧
      (Val.datetime 0).Same w := by
  rintro ⟨repr, w, hrepr, hread, _⟩
  have hbuilt : (Val.datetime 0).Built := .datetime 0
  obtain ⟨repr', hrepr', hloads⟩ := Val.loads_dumps hbuilt.isJson
  cases hrepr.symm.trans hrepr'
  rw [Val.fromJson, hloads, hbuilt.deserialize_error rfl] at hread
  cases hread

end YtScheduler
