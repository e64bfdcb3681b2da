import YtScheduler.Serialization.Encoding

/-! What comes back from storage. A JSON value that was encoded, dumped, loaded and
decoded is itself with its keys in order, so that the second encoding of a task leaves
the first one in place; and the first one, decoded, gives the spec. -/

namespace YtScheduler.Serialization

namespace Val

/-- The values JSON has. -/
inductive IsJson : Val → Prop
  | prim {p : Prim} (h : p.IsFinite) : IsJson (.prim p)
  | attr (t : AttrTypes) : IsJson (.attr t)
  | list {xs : List Val} (h : ∀ x ∈ xs, IsJson x) : IsJson (.list xs)
  | dict {es : Entries} (h : ∀ e ∈ es, IsJson e.2) : IsJson (.dict es)

/-- The values of user specs: finite numbers, sets of hashable values without two equal elements, and
dictionaries without two equal keys. -/
inductive Storable : Val → Prop
  | prim {p : Prim} (h : p.IsFinite) : Storable (.prim p)
  | list {xs : List Val} (h : ∀ x ∈ xs, Storable x) : Storable (.list xs)
  | tuple {xs : List Val} (h : ∀ x ∈ xs, Storable x) : Storable (.tuple xs)
  | timedelta (micros : ℤ) : Storable (.timedelta micros)
  | set {xs : List Val} (h : ∀ x ∈ xs, Storable x) (hh : ∀ x ∈ xs, x.hashable = true)
      (hd : xs.Pairwise fun x y => x.pyEq y = false) : Storable (.set xs)
  | dict {es : Entries} (h : ∀ e ∈ es, Storable e.2) (hd : (es.map Prod.fst).Nodup) :
      Storable (.dict es)

/-- The values of user specs, and datetimes. -/
inductive Built : Val → Prop
  | prim {p : Prim} (h : p.IsFinite) : Built (.prim p)
  | list {xs : List Val} (h : ∀ x ∈ xs, Built x) : Built (.list xs)
  | tuple {xs : List Val} (h : ∀ x ∈ xs, Built x) : Built (.tuple xs)
  | datetime (micros : ℤ) : Built (.datetime micros)
  | timedelta (micros : ℤ) : Built (.timedelta micros)
  | set {xs : List Val} (h : ∀ x ∈ xs, Built x) (hh : ∀ x ∈ xs, x.hashable = true)
      (hd : xs.Pairwise fun x y => x.pyEq y = false) : Built (.set xs)
  | dict {es : Entries} (h : ∀ e ∈ es, Built e.2) (hd : (es.map Prod.fst).Nodup) :
      Built (.dict es)

/-- The values of specs, `nan` and the infinities among them. -/
inductive Formed : Val → Prop
  | prim (p : Prim) : Formed (.prim p)
  | list {xs : List Val} (h : ∀ x ∈ xs, Formed x) : Formed (.list xs)
  | tuple {xs : List Val} (h : ∀ x ∈ xs, Formed x) : Formed (.tuple xs)
  | datetime (micros : ℤ) : Formed (.datetime micros)
  | timedelta (micros : ℤ) : Formed (.timedelta micros)
  | set {xs : List Val} (h : ∀ x ∈ xs, Formed x) (hh : ∀ x ∈ xs, x.hashable = true)
      (hd : xs.Pairwise fun x y => x.pyEq y = false) : Formed (.set xs)
  | dict {es : Entries} (h : ∀ e ∈ es, Formed e.2) (hd : (es.map Prod.fst).Nodup) :
      Formed (.dict es)

theorem Built.formed {v : Val} (h : Built v) : Formed v := by
  induction h with
  | prim h => exact .prim _
  | list _ ih => exact .list ih
  | tuple _ ih => exact .tuple ih
  | datetime micros => exact .datetime micros
  | timedelta micros => exact .timedelta micros
  | set _ hh hd ih => exact .set ih hh hd
  | dict _ hd ih => exact .dict ih hd

theorem Storable.built {v : Val} (h : Storable v) : Built v := by
  induction h with
  | prim h => exact .prim h
  | list _ ih => exact .list ih
  | tuple _ ih => exact .tuple ih
  | timedelta micros => exact .timedelta micros
  | set _ hh hd ih => exact .set ih hh hd
  | dict _ hd ih => exact .dict ih hd

mutual

/-- A JSON value as it comes back: strings for enumeration members and keys in order. -/
def plain : Val → Val
  | .attr t => .prim (.str t.value)
  | .list xs => .list (plainList xs)
  | .dict es => .dict (sortKeys (plainEntries es))
  | v => v

def plainList : List Val → List Val
  | [] => []
  | x :: xs => plain x :: plainList xs

def plainEntries : Entries → Entries
  | [] => []
  | (k, v) :: es => (k, plain v) :: plainEntries es

end

/-! ### Lists and entries -/

theorem plainList_eq (xs : List Val) : plainList xs = xs.map plain := by
  induction xs with
  | nil => rfl
  | cons x xs ih => rw [plainList, ih, List.map_cons]

theorem plainEntries_eq (es : Entries) : plainEntries es = es.map fun e => (e.1, plain e.2) := by
  induction es with
  | nil => rfl
  | cons e es ih => rw [plainEntries, ih, List.map_cons]

theorem serializeList_eq (xs : List Val) : serializeList xs = xs.map serialize := by
  induction xs with
  | nil => rfl
  | cons x xs ih => rw [serializeList, ih, List.map_cons]

theorem plain_serializeList (xs : List Val) :
    plain (.list (serializeList xs)) = .list (xs.map fun x => plain x.serialize) := by
  rw [plain, plainList_eq, serializeList_eq, List.map_map]
  rfl

theorem serializeEntries_eq (es : Entries) :
    serializeEntries es = es.map fun e => (e.1, serialize e.2) := by
  induction es with
  | nil => rfl
  | cons e es ih => rw [serializeEntries, ih, List.map_cons]

/-- A dictionary that came back from JSON. -/
theorem plain_dict (es : Entries) :
    plain (.dict es) = .dict ((sortKeys es).map fun e => (e.1, plain e.2)) := by
  rw [plain, plainEntries_eq, sortKeys_map]

theorem plain_serializeEntries (es : Entries) : plain (.dict (serializeEntries es)) =
    .dict ((sortKeys es).map fun e => (e.1, plain e.2.serialize)) := by
  rw [plain_dict, serializeEntries_eq, sortKeys_map, List.map_map]
  rfl

variable {iso : String → Except PyError ℤ}

variable (iso) in
/-- Decoding a list whose elements decode to related values. -/
theorem deserializeList_map {R : Val → Val → Prop} {f : Val → Val} {xs : List Val}
    (h : ∀ x ∈ xs, ∃ w, deserialize iso (f x) = .ok w ∧ R x w) :
    ∃ ws, deserializeList iso (xs.map f) = .ok ws ∧ List.Forall₂ R xs ws := by
  induction xs with
  | nil => exact ⟨[], rfl, .nil⟩
  | cons x xs ih =>
    rw [List.forall_mem_cons] at h
    obtain ⟨⟨w, hw, hR⟩, h⟩ := h
    obtain ⟨ws, hws, hRs⟩ := ih h
    refine ⟨w :: ws, ?_, .cons hR hRs⟩
    rw [List.map_cons, deserializeList, hw, hws]
    rfl

variable (iso) in
theorem deserializeEntries_map {R : Val → Val → Prop} {f : Val → Val} (es : Entries)
    (h : ∀ e ∈ es, ∃ w, deserialize iso (f e.2) = .ok w ∧ R e.2 w) :
    ∃ ws, deserializeEntries iso (es.map fun e => (e.1, f e.2)) = .ok ws ∧
      List.Forall₂ (fun e d => e.1 = d.1 ∧ R e.2 d.2) es ws := by
  induction es with
  | nil => exact ⟨[], rfl, .nil⟩
  | cons e es ih =>
    rw [List.forall_mem_cons] at h
    obtain ⟨⟨w, hw, hR⟩, h⟩ := h
    obtain ⟨ws, hws, hRs⟩ := ih h
    refine ⟨(e.1, w) :: ws, ?_, .cons ⟨rfl, hR⟩ hRs⟩
    rw [List.map_cons, deserializeEntries, hw, hws]
    rfl

/-! ### One layer -/

/-- An encoded value as it comes back. -/
theorem plain_encode (x : Val) (type : AttrTypes) :
    plain (encode x type) = .dict [("__type", .prim (.str type.value)), ("__var", plain x)] := by
  have hle : ¬("__var" : String) ≤ "__type" := by decide
  rw [encode, plain_dict]
  simp [sortKeys, hle, plain]

/-- It is decoded by its type. -/
theorem deserialize_plain_encode (x : Val) (type : AttrTypes) :
    deserialize iso (plain (encode x type)) = deserializeAs iso (some type.value) (plain x) := by
  rw [plain_encode]
  simp [deserialize, deserializeVar, text?]

theorem IsJson.encode {x : Val} (h : IsJson x) (type : AttrTypes) : IsJson (encode x type) := by
  refine .dict ?_
  intro e he
  rcases List.mem_cons.mp he with rfl | he
  · exact h
  · rcases List.mem_singleton.mp he with rfl
    exact .attr type

/-- JSON values survive the JSON text. -/
theorem loads_dumps {v : Val} (h : IsJson v) :
    ∃ j, Json.dumps v = some j ∧ Json.loads j = plain v := by
  induction h with
  | prim h => exact ⟨_, rfl, by cases ‹Prim› <;> rfl⟩
  | attr t => exact ⟨_, rfl, rfl⟩
  | @list xs _ ih =>
    have hlist : ∃ js, Json.dumpsList xs = some js ∧ js.map Json.loads = xs.map plain := by
      clear * - ih
      induction xs with
      | nil => exact ⟨[], rfl, rfl⟩
      | cons x xs hxs =>
        rw [List.forall_mem_cons] at ih
        obtain ⟨⟨j, hj, hl⟩, ih⟩ := ih
        obtain ⟨js, hjs, hls⟩ := hxs ih
        exact ⟨j :: js, by rw [Json.dumpsList, hj, hjs]; rfl, by rw [List.map_cons, hl, hls]; rfl⟩
    obtain ⟨js, hjs, hls⟩ := hlist
    refine ⟨.arr js, by rw [Json.dumps, hjs]; rfl, ?_⟩
    rw [Json.loads, Json.loadsList_eq, hls, plain, plainList_eq]
  | @dict es _ ih =>
    have hentries : ∃ js, Json.dumpsEntries es = some js ∧
        js.map (fun e => (e.1, Json.loads e.2)) = es.map fun e => (e.1, plain e.2) := by
      clear * - ih
      induction es with
      | nil => exact ⟨[], rfl, rfl⟩
      | cons e es hes =>
        rw [List.forall_mem_cons] at ih
        obtain ⟨⟨j, hj, hl⟩, ih⟩ := ih
        obtain ⟨js, hjs, hls⟩ := hes ih
        exact ⟨(e.1, j) :: js, by rw [Json.dumpsEntries, hj, hjs]; rfl,
          by rw [List.map_cons, hl, hls]; rfl⟩
    obtain ⟨js, hjs, hls⟩ := hentries
    refine ⟨.obj (sortKeys js), by rw [Json.dumps, hjs]; rfl, ?_⟩
    rw [Json.loads, Json.loadsEntries_eq, ← sortKeys_map, hls, plain, plainEntries_eq]

theorem IsJson.serialize {v : Val} (h : IsJson v) : IsJson v.serialize := by
  induction h with
  | prim h => exact .prim (by rw [h]; exact h)
  | attr t => exact .prim rfl
  | list _ ih =>
    rw [Val.serialize, serializeList_eq]
    refine .list fun y hy => ?_
    obtain ⟨x, hx, rfl⟩ := List.mem_map.mp hy
    exact ih x hx
  | dict _ ih =>
    rw [Val.serialize, serializeEntries_eq]
    refine IsJson.encode (.dict fun d hd => ?_) _
    obtain ⟨e, he, rfl⟩ := List.mem_map.mp hd
    exact ih e he

/-- The decoder takes off what the encoder puts on a JSON value. -/
theorem deserialize_plain_serialize {v : Val} (h : IsJson v) :
    deserialize iso (plain v.serialize) = .ok (plain v) := by
  induction h with
  | @prim p h => rw [Val.serialize, h]; rfl
  | attr t => rfl
  | @list xs _ ih =>
    obtain ⟨ws, hws, hR⟩ := deserializeList_map iso (R := fun x w => w = plain x)
      (f := fun x => plain x.serialize) fun x hx => ⟨_, ih x hx, rfl⟩
    have heq : ws = xs.map plain := by
      rw [← List.forall₂_eq_eq_eq, List.forall₂_map_right_iff]
      exact hR.flip
    rw [Val.serialize, plain_serializeList, deserialize, plain, plainList_eq, ← heq]
    exact congrArg (Except.map Val.list) hws
  | @dict es _ ih =>
    obtain ⟨ws, hws, hR⟩ := deserializeEntries_map iso (sortKeys es)
      (R := fun x w => w = plain x) (f := fun x => plain x.serialize)
      fun e he => ⟨_, ih e (mem_sortKeys.mp he), rfl⟩
    have heq : ws = (sortKeys es).map fun e => (e.1, plain e.2) := by
      rw [← List.forall₂_eq_eq_eq, List.forall₂_map_right_iff]
      exact hR.flip.imp fun d e hde => Prod.ext hde.1.symm hde.2
    rw [Val.serialize, deserialize_plain_encode, plain_serializeEntries, deserializeAs,
      if_pos (show some AttrTypes.dict.value = some "dict" from rfl),
      plain_dict, ← heq]
    exact congrArg (Except.map Val.dict) hws

/-! ### User specs -/

theorem exists_of_forall₂ {α β : Type} {R : α → β → Prop} {xs : List α} {ys : List β}
    (h : List.Forall₂ R xs ys) : ∀ x ∈ xs, ∃ y ∈ ys, R x y := by
  induction h with
  | nil => exact fun _ hx => nomatch hx
  | cons hR _ ih =>
    rw [List.forall_mem_cons]
    refine ⟨⟨_, List.mem_cons_self, hR⟩, fun x hx => ?_⟩
    obtain ⟨y, hy, hR⟩ := ih x hx
    exact ⟨y, List.mem_cons_of_mem _ hy, hR⟩

theorem mapM_prim? (ps : List Prim) : (ps.map Val.prim).mapM prim? = some ps := by
  rw [List.mapM_map]
  induction ps with
  | nil => rfl
  | cons p ps ih => simp [List.mapM_cons, prim?, ih]

theorem eq_map_prim {xs : List Val} {ps : List Prim} (h : xs.mapM prim? = some ps) :
    xs = ps.map .prim := by
  induction xs generalizing ps with
  | nil =>
    rw [List.mapM_nil] at h
    cases h
    rfl
  | cons x xs ih =>
    rw [List.mapM_cons] at h
    obtain ⟨p, hp, h⟩ := Option.bind_eq_some_iff.mp h
    obtain ⟨qs, hqs, h⟩ := Option.bind_eq_some_iff.mp h
    cases h
    cases x with
    | prim q =>
      cases hp
      rw [List.map_cons, ih hqs]
    | _ => cases hp

theorem perm_sortSet (xs : List Val) : (sortSet xs).Perm xs := by
  unfold sortSet
  split
  · next ps hps =>
    rw [eq_map_prim hps, Prim.sorted?]
    refine List.Perm.map _ ?_
    split_ifs
    · exact List.perm_insertionSort _ ps
    · exact List.Perm.refl ps
  · exact List.Perm.refl xs

/-! ### Sets -/

mutual

theorem eq_of_same {v w : Val} (h : v.hashable = true) (hs : Same v w) : v = w := by
  cases v with
  | prim p =>
    cases w with
    | prim q => exact congrArg Val.prim hs
    | _ => exact hs.elim
  | attr t =>
    cases w with
    | attr u => exact congrArg Val.attr hs
    | _ => exact hs.elim
  | datetime m =>
    cases w with
    | datetime n => exact congrArg Val.datetime hs
    | _ => exact hs.elim
  | timedelta m =>
    cases w with
    | timedelta n => exact congrArg Val.timedelta hs
    | _ => exact hs.elim
  | tuple xs =>
    cases w with
    | tuple ys => exact congrArg Val.tuple (eq_of_sameList h hs)
    | _ => exact hs.elim
  | _ => cases h

theorem eq_of_sameList {xs ys : List Val} (h : hashableList xs = true) (hs : SameList xs ys) :
    xs = ys := by
  cases xs with
  | nil =>
    cases ys with
    | nil => rfl
    | cons y ys => exact hs.elim
  | cons x xs =>
    cases ys with
    | nil => exact hs.elim
    | cons y ys =>
      rw [hashableList, Bool.and_eq_true] at h
      rw [eq_of_same h.1 hs.1, eq_of_sameList h.2 hs.2]

end

theorem hashableList_iff {xs : List Val} :
    hashableList xs = true ↔ ∀ x ∈ xs, x.hashable = true := by
  induction xs with
  | nil => simp [hashableList]
  | cons x xs ih => rw [hashableList, Bool.and_eq_true, ih, List.forall_mem_cons]

mutual

theorem pyEq_comm (v w : Val) : v.pyEq w = w.pyEq v := by
  cases v with
  | prim p =>
    cases w with
    | prim q => exact Prim.pyEq_comm p q
    | attr t => cases p <;> simp [pyEq, eq_comm]
    | _ => cases p <;> rfl
  | attr t =>
    cases w with
    | prim q => cases q <;> simp [pyEq, eq_comm]
    | attr u => simp [pyEq, eq_comm]
    | _ => rfl
  | tuple xs =>
    cases w with
    | prim q => cases q <;> rfl
    | tuple ys => exact pyEqList_comm xs ys
    | _ => rfl
  | datetime m =>
    cases w with
    | prim q => cases q <;> rfl
    | datetime n => simp [pyEq, eq_comm]
    | _ => rfl
  | timedelta m =>
    cases w with
    | prim q => cases q <;> rfl
    | timedelta n => simp [pyEq, eq_comm]
    | _ => rfl
  | _ =>
    cases w with
    | prim q => cases q <;> rfl
    | _ => rfl

theorem pyEqList_comm (xs ys : List Val) : pyEqList xs ys = pyEqList ys xs := by
  cases xs with
  | nil => cases ys <;> rfl
  | cons x xs =>
    cases ys with
    | nil => rfl
    | cons y ys => rw [pyEqList, pyEqList, pyEq_comm x y, pyEqList_comm xs ys]

end

theorem exists_perm_map {α β : Type} {f : α → β} {l : List β} {xs : List α}
    (h : l.Perm (xs.map f)) : ∃ zs : List α, zs.Perm xs ∧ l = zs.map f := by
  have hcomp : Relation.Comp (fun l zs => l = List.map f zs) List.Perm l xs := by
    rw [List.eq_map_comp_perm]
    exact h
  obtain ⟨zs, hl, hperm⟩ := hcomp
  exact ⟨zs, hperm, hl⟩

/-- The elements of a set as they are stored. -/
theorem exists_stored (xs : List Val) :
    ∃ zs : List Val, zs.Perm xs ∧ sortSet (serializeList xs) = zs.map serialize := by
  rw [serializeList_eq]
  exact exists_perm_map (perm_sortSet _)

/-- Hashable values that come back as they are make a set that comes back. -/
theorem deserialize_set {xs : List Val}
    (h : ∀ x ∈ xs, deserialize iso (plain x.serialize) = .ok x)
    (hh : ∀ x ∈ xs, x.hashable = true) (hd : xs.Pairwise fun x y => x.pyEq y = false) :
    ∃ ys, deserialize iso (plain (serialize (.set xs))) = .ok (.set ys) ∧ xs.Perm ys := by
  obtain ⟨zs, hperm, hstored⟩ := exists_stored xs
  have hd' : zs.Pairwise fun x y => x.pyEq y = false :=
    hd.perm hperm.symm fun hxy => (pyEq_comm _ _).trans hxy
  have hread : deserializeList iso ((zs.map serialize).map plain) = .ok zs := by
    obtain ⟨ws, hws, hR⟩ := deserializeList_map iso (R := fun x w => w = x)
      (f := fun x => plain x.serialize) fun x hx => ⟨x, h x (hperm.mem_iff.mp hx), rfl⟩
    have heq : ws = zs := by
      rw [← List.forall₂_eq_eq_eq]
      exact hR.flip
    rw [List.map_map]
    rwa [heq] at hws
  refine ⟨zs, ?_, hperm.symm⟩
  rw [serialize, deserialize_plain_encode, hstored, plain, plainList_eq, deserializeAs,
    if_pos (show some AttrTypes.set.value = some "set" from rfl), hread]
  show toSet zs = _
  rw [toSet, if_pos (hashableList_iff.mpr fun x hx => hh x (hperm.mem_iff.mp hx)),
    dedup_of_pairwise hd']

/-- An encoded value is made of JSON values. -/
theorem Formed.isJson {v : Val} (h : Formed v) : IsJson v.serialize := by
  induction h with
  | prim p => exact .prim (Prim.serialize_isFinite p)
  | list _ ih =>
    rw [Val.serialize, serializeList_eq]
    refine .list fun y hy => ?_
    obtain ⟨x, hx, rfl⟩ := List.mem_map.mp hy
    exact ih x hx
  | tuple _ ih =>
    rw [Val.serialize, serializeList_eq]
    refine IsJson.encode (.list fun y hy => ?_) _
    obtain ⟨x, hx, rfl⟩ := List.mem_map.mp hy
    exact ih x hx
  | datetime micros =>
    have hfinite : (Prim.float (.finite (totalSeconds micros))).IsFinite := rfl
    exact IsJson.encode (.prim hfinite) _
  | timedelta micros =>
    have hfinite : (Prim.float (.finite (totalSeconds micros))).IsFinite := rfl
    exact IsJson.encode (.prim hfinite) _
  | @set xs _ _ _ ih =>
    refine IsJson.encode (.list fun y hy => ?_) _
    obtain ⟨zs, hperm, hstored⟩ := exists_stored xs
    rw [hstored] at hy
    obtain ⟨x, hx, rfl⟩ := List.mem_map.mp hy
    exact ih x (hperm.mem_iff.mp hx)
  | dict _ _ ih =>
    rw [Val.serialize, serializeEntries_eq]
    refine IsJson.encode (.dict fun d hd => ?_) _
    obtain ⟨e, he, rfl⟩ := List.mem_map.mp hd
    exact ih e he

theorem Built.isJson {v : Val} (h : Built v) : IsJson v.serialize := h.formed.isJson

/-- The decoded entries of a dictionary whose values come back. -/
theorem sameDict_of_forall₂ {es ws : Entries}
    (h : List.Forall₂ (fun e d => e.1 = d.1 ∧ Same e.2 d.2) (sortKeys es) ws) :
    SameDict es ws := by
  refine ⟨?_, ?_⟩
  · have hkeys : (sortKeys es).map Prod.fst = ws.map Prod.fst := by
      rw [← List.forall₂_eq_eq_eq, List.forall₂_map_left_iff, List.forall₂_map_right_iff]
      exact h.imp fun _ _ hR => hR.1
    rw [← hkeys]
    exact (perm_sortKeys es).symm.map _
  · rw [sameEntries_iff]
    intro e he
    obtain ⟨d, hd, hkey, hsame⟩ := exists_of_forall₂ h e (mem_sortKeys.mpr he)
    exact ⟨d.2, by rw [hkey]; exact hd, hsame⟩

variable (iso) in
/-- A user spec comes back from storage. -/
theorem Storable.roundTrip {v : Val} (h : Storable v) :
    ∃ w, deserialize iso (plain v.serialize) = .ok w ∧ Same v w := by
  induction h with
  | @prim p h => exact ⟨.prim p, by rw [Val.serialize, h]; rfl, rfl⟩
  | @list xs _ ih =>
    obtain ⟨ws, hws, hR⟩ := deserializeList_map iso (f := fun x => plain x.serialize) ih
    refine ⟨.list ws, ?_, sameList_iff.mpr hR⟩
    rw [Val.serialize, plain_serializeList, deserialize]
    exact congrArg (Except.map Val.list) hws
  | @tuple xs _ ih =>
    obtain ⟨ws, hws, hR⟩ := deserializeList_map iso (f := fun x => plain x.serialize) ih
    refine ⟨.tuple ws, ?_, sameList_iff.mpr hR⟩
    rw [Val.serialize, deserialize_plain_encode, plain_serializeList, deserializeAs, if_neg (by decide),
      if_pos (show some AttrTypes.tuple.value = some "tuple" from rfl)]
    exact congrArg (Except.map Val.tuple) hws
  | timedelta micros =>
    refine ⟨.timedelta micros, ?_, rfl⟩
    rw [Val.serialize, deserialize_plain_encode]
    show deserializeAs iso (some "timedelta") (.prim (.float (.finite (totalSeconds micros)))) = _
    rw [deserializeAs, if_neg (by decide), if_pos rfl]
    · show Except.ok (Val.timedelta (Serialization.ofSeconds (totalSeconds micros))) = _
      rw [ofSeconds_totalSeconds]
    · exact fun _ h => nomatch h
  | @set xs _ hh hd ih =>
    have hself : ∀ x ∈ xs, deserialize iso (plain x.serialize) = .ok x := by
      intro x hx
      obtain ⟨w, hw, hsame⟩ := ih x hx
      rw [hw, ← eq_of_same (hh x hx) hsame]
    obtain ⟨ys, hys, hperm⟩ := deserialize_set hself hh hd
    exact ⟨.set ys, hys, hperm⟩
  | @dict es _ _ ih =>
    obtain ⟨ws, hws, hR⟩ := deserializeEntries_map iso (sortKeys es)
      (f := fun x => plain x.serialize) fun e he => ih e (mem_sortKeys.mp he)
    refine ⟨.dict ws, ?_, sameDict_of_forall₂ hR⟩
    rw [Val.serialize, deserialize_plain_encode, plain_serializeEntries, deserializeAs,
      if_pos (show some AttrTypes.dict.value = some "dict" from rfl)]
    exact congrArg (Except.map Val.dict) hws

end Val

end YtScheduler.Serialization
