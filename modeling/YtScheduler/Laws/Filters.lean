import YtScheduler.Store.Clauses
import Mathlib.Data.Fintype.EquivFin

/-! Which rows the where clause of `make_formatted_select` selects. Values without a quote
and a backslash are read as they were pasted. With any other value some value is no
literal of the clause, which then cannot tell it from a string that is in none. -/

namespace YtScheduler.Filters

open Quoting

/-! ### The text as quoted values -/

/-- The values of a list with the texts before them, the first one given. -/
def listSegs (before : Text) : List Text → List (Text × Text)
  | [] => []
  | v :: vs => (before, v) :: listSegs ", ".toList vs

/-- The values of a filter with the texts before them. -/
def filterSegs (before : Text) (f : Column × FilterValue) : List (Text × Text) :=
  match f.2 with
  | .str v => [(before ++ (f.1.name ++ " = ".toList), v)]
  | .list vs => listSegs (before ++ (f.1.name ++ " in (".toList)) vs
  | .tuple vs => listSegs (before ++ (f.1.name ++ " in (".toList)) vs

/-- The text after the last value of a filter. -/
def closing (f : Column × FilterValue) : Text :=
  if (processFilterValue f.2).1.isListLike then ")".toList else []

/-- The values of all filters with the texts before them, and the text after the last. -/
def joinedSegs : Text → List (Column × FilterValue) → List (Text × Text) × Text
  | before, [] => ([], before)
  | before, [f] => (filterSegs before f, closing f)
  | before, f :: fs =>
    (filterSegs before f ++ (joinedSegs (closing f ++ " and ".toList) fs).1,
      (joinedSegs (closing f ++ " and ".toList) fs).2)

section Text

variable {x : Escaping}

theorem quoted_append (a b : List (Text × Text)) :
    quoted x.escapes (a ++ b) = quoted x.escapes a ++ quoted x.escapes b := List.flatMap_append

theorem quoted_listSegs (before : Text) {vs : List Text} (hne : vs ≠ []) :
    quoted x.escapes (listSegs before vs) =
      before ++ ", ".toList.intercalate (vs.map quoteValue) := by
  induction vs generalizing before with
  | nil => exact absurd rfl hne
  | cons v vs ih =>
    cases vs with
    | nil => simp [listSegs, quoted, quoteValue, Escaping.escapes]
    | cons u vs =>
      rw [List.map_cons, List.intercalate_cons_of_ne_nil (by simp), listSegs]
      change before ++ (quoteValue v) ++ quoted x.escapes (listSegs ", ".toList (u :: vs)) = _
      rw [ih _ (by simp)]
      simp

theorem quoted_filterSegs (before : Text) (f : Column × FilterValue) :
    quoted x.escapes (filterSegs before f) ++ closing f = before ++ pasted f := by
  obtain ⟨column, value⟩ := f
  cases value with
  | str v =>
    simp [filterSegs, closing, quoted, pasted, comparisonText, processFilterValue,
      ValueType.isListLike, quoteValue, Escaping.escapes]
  | list vs =>
    simp only [filterSegs, quoted_listSegs _ vs.2]
    simp [closing, pasted, comparisonText, processFilterValue, ValueType.isListLike, flatten]
  | tuple vs =>
    simp only [filterSegs, quoted_listSegs _ vs.2]
    simp [closing, pasted, comparisonText, processFilterValue, ValueType.isListLike, flatten]

theorem quoted_joinedSegs (before : Text) (fs : List (Column × FilterValue)) :
    quoted x.escapes (joinedSegs before fs).1 ++ (joinedSegs before fs).2 = before ++ joined fs := by
  induction fs generalizing before with
  | nil => simp [joinedSegs, joined, quoted]
  | cons f fs ih =>
    cases fs with
    | nil =>
      rw [joined_singleton]
      exact quoted_filterSegs before f
    | cons g fs =>
      have hrest := ih (closing f ++ " and ".toList)
      calc quoted x.escapes (filterSegs before f ++ (joinedSegs _ (g :: fs)).1) ++ _
          = quoted x.escapes (filterSegs before f) ++
              (quoted x.escapes (joinedSegs (closing f ++ " and ".toList) (g :: fs)).1 ++
                (joinedSegs (closing f ++ " and ".toList) (g :: fs)).2) := by
            rw [quoted_append, List.append_assoc]
            rfl
        _ = (quoted x.escapes (filterSegs before f) ++ closing f) ++
              (" and ".toList ++ joined (g :: fs)) := by
            rw [hrest]
            simp only [List.append_assoc]
        _ = before ++ joined (f :: g :: fs) := by
            rw [quoted_filterSegs, joined_cons_cons, List.append_assoc]

/-- The texts before the values are plain and not empty. -/
def Spaced (x : Escaping) (segs : List (Text × Text)) : Prop :=
  ∀ seg ∈ segs, Plain x.escapes seg.1 ∧ seg.1 ≠ []

theorem plain_append {t u : Text} (ht : Plain x.escapes t) (hu : Plain x.escapes u) :
    Plain x.escapes (t ++ u) :=
  List.forall_mem_append.mpr ⟨ht, hu⟩

theorem spaced_listSegs {before : Text} {vs : List Text} (h : Plain x.escapes before)
    (hne : before ≠ []) : Spaced x (listSegs before vs) := by
  induction vs generalizing before with
  | nil => simp [listSegs, Spaced]
  | cons v vs ih =>
    exact List.forall_mem_cons.mpr ⟨⟨h, hne⟩, ih (plain_text (by decide)) (by decide)⟩

theorem spaced_filterSegs {before : Text} {f : Column × FilterValue} (h : Plain x.escapes before) :
    Spaced x (filterSegs before f) := by
  have hname : ∀ {t : Text}, Plain x.escapes t →
      Plain x.escapes (before ++ (f.1.name ++ t)) ∧ before ++ (f.1.name ++ t) ≠ [] := by
    intro t ht
    exact ⟨plain_append h (plain_append f.1.plain ht), by simp [f.1.ne_nil]⟩
  obtain ⟨column, value⟩ := f
  cases value with
  | str v => exact List.forall_mem_singleton.mpr (hname (plain_text (by decide)))
  | list vs => exact spaced_listSegs (hname (plain_text (by decide))).1 (hname (plain_text (by decide))).2
  | tuple vs => exact spaced_listSegs (hname (plain_text (by decide))).1 (hname (plain_text (by decide))).2

theorem plain_closing {f : Column × FilterValue} : Plain x.escapes (closing f) := by
  unfold closing
  split_ifs
  · exact plain_text (by decide)
  · exact plain_text (by decide)

theorem spaced_joinedSegs {before : Text} (h : Plain x.escapes before)
    (fs : List (Column × FilterValue)) :
    Spaced x (joinedSegs before fs).1 ∧ Plain x.escapes (joinedSegs before fs).2 := by
  induction fs generalizing before with
  | nil => exact ⟨by simp [joinedSegs, Spaced], h⟩
  | cons f fs ih =>
    cases fs with
    | nil => exact ⟨spaced_filterSegs h, plain_closing⟩
    | cons g fs =>
      obtain ⟨hsegs, htail⟩ := ih (plain_append plain_closing (plain_text (t := " and ".toList) (by decide)))
      exact ⟨List.forall_mem_append.mpr ⟨spaced_filterSegs h, hsegs⟩, htail⟩

end Text

theorem listSegs_values (before : Text) (vs : List Text) :
    (listSegs before vs).map Prod.snd = vs := by
  induction vs generalizing before with
  | nil => rfl
  | cons v vs ih => rw [listSegs, List.map_cons, ih]

theorem filterSegs_values (before : Text) (f : Column × FilterValue) :
    (filterSegs before f).map Prod.snd = f.2.values := by
  obtain ⟨column, value⟩ := f
  cases value with
  | str v => rfl
  | list vs => exact listSegs_values _ vs
  | tuple vs => exact listSegs_values _ vs

theorem joinedSegs_values (before : Text) (fs : List (Column × FilterValue)) :
    (joinedSegs before fs).1.map Prod.snd = fs.flatMap fun f => f.2.values := by
  induction fs generalizing before with
  | nil => rfl
  | cons f fs ih =>
    cases fs with
    | nil => simpa [joinedSegs] using filterSegs_values before f
    | cons g fs =>
      rw [joinedSegs, List.map_append, filterSegs_values, ih, List.flatMap_cons (x := f)]
      · simp

/-! ### Rows that the clause cannot tell apart -/

theorem given_names (kwargs : Kwargs) : ((given kwargs).map fun f => f.1.name).Nodup := by
  have hsub : ∀ args : List (Column × Option FilterValue),
      ((args.filterMap fun arg => arg.2.map fun value => (arg.1, value)).map fun f => f.1.name).Sublist
        (args.map fun arg => arg.1.name) := by
    intro args
    induction args with
    | nil => exact .slnil
    | cons arg args ih =>
      cases harg : arg.2 with
      | none => simpa [harg] using ih.cons _
      | some value => simpa [harg] using ih
  exact kwargs.nodup.sublist (hsub kwargs.args)

theorem eq_of_name_eq {kwargs : Kwargs} {f g : Column × FilterValue} (hf : f ∈ given kwargs)
    (hg : g ∈ given kwargs) (h : f.1.name = g.1.name) : f = g :=
  List.inj_on_of_nodup_map (given_names kwargs) hf hg h

theorem FilterValue.headI_mem (value : FilterValue) : value.values.headI ∈ value.values := by
  have hlist : ∀ vs : {vs : List Text // vs ≠ []}, vs.1.headI ∈ vs.1 := by
    rintro ⟨vs, hne⟩
    cases vs with
    | nil => exact absurd rfl hne
    | cons v vs => exact List.mem_cons_self
  cases value with
  | str v => exact List.mem_singleton_self v
  | list vs => exact hlist vs
  | tuple vs => exact hlist vs

/-- A row that meets every filter but `f`, and has `v` in the column of `f`. -/
def meeting (fs : List (Column × FilterValue)) (f : Column × FilterValue) (v : Text) : Row :=
  Function.update (fun name => (fs.find? fun g => g.1.name = name).map fun g => g.2.values.headI)
    f.1.name (some v)

theorem selected_meeting {kwargs : Kwargs} {f : Column × FilterValue} {v : Text}
    (hf : f ∈ given kwargs) :
    Selected kwargs (meeting (given kwargs) f v) ↔ v ∈ f.2.values := by
  rw [selected_iff]
  constructor
  · intro h
    obtain ⟨u, hu, hrow⟩ := h f hf
    rw [meeting, Function.update_self, Option.some.injEq] at hrow
    rwa [hrow]
  · intro hv g hg
    by_cases hname : g.1.name = f.1.name
    · obtain rfl := eq_of_name_eq hg hf hname
      exact ⟨v, hv, Function.update_self _ _ _⟩
    · refine ⟨_, g.2.headI_mem, ?_⟩
      rw [meeting, Function.update_of_ne hname]
      cases hfind : (given kwargs).find? fun g' => g'.1.name = g.1.name with
      | none => exact absurd (List.find?_eq_none.mp hfind g hg) (by simp)
      | some g' =>
        have hsame : g'.1.name = g.1.name := by simpa using List.find?_some hfind
        rw [eq_of_name_eq (List.mem_of_find?_eq_some hfind) hg hsame]
        rfl

/-- A clause that selects the right rows has every value of its filters as a literal: a string that
is in no literal is selected only if the value is. -/
theorem literal_of_selects {x : Escaping} {kwargs : Kwargs} {o : Option Condition}
    {ps : List (Piece Char)} (hps : pieces x.escapes (whereClause kwargs) = some ps)
    (hread : readWhere x.escapes (whereClause kwargs) = some o)
    (h : ∀ row, selects row o = true ↔ Selected kwargs row) {f : Column × FilterValue}
    (hf : f ∈ given kwargs) {v : Text} (hv : v ∈ f.2.values) : .literal v ∈ ps := by
  by_contra hmissing
  let used : List Text := f.2.values ++ ps.filterMap Piece.literal?
  obtain ⟨w, hw⟩ := Infinite.exists_notMem_finset used.toFinset
  rw [List.mem_toFinset, List.mem_append, not_or] at hw
  have hfresh : .literal w ∉ ps := fun hlit => hw.2 (List.mem_filterMap.mpr ⟨_, hlit, rfl⟩)
  have hsame : selects (meeting (given kwargs) f v) o = selects (meeting (given kwargs) f w) o := by
    apply selects_congr hread
    intro ps' hps' u hu column
    obtain rfl : ps' = ps := Option.some.inj (hps'.symm.trans hps)
    by_cases hcolumn : column = f.1.name
    · subst hcolumn
      simp only [meeting, Function.update_self, Option.some.injEq]
      constructor
      · rintro rfl
        exact absurd hu hmissing
      · rintro rfl
        exact absurd hu hfresh
    · simp only [meeting, Function.update_of_ne hcolumn]
  have hselected := (h _).mpr ((selected_meeting hf).mpr hv)
  rw [hsame, h, selected_meeting hf] at hselected
  exact hw.1 hselected

/-- A clause that selects the right rows has plain values only. -/
theorem plain_of_selects {x : Escaping} {kwargs : Kwargs} {o : Option Condition}
    (hread : readWhere x.escapes (whereClause kwargs) = some o)
    (h : ∀ row, selects row o = true ↔ Selected kwargs row) :
    ∀ f ∈ given kwargs, ∀ v ∈ f.2.values, Plain x.escapes v := by
  intro f hf v hv
  obtain ⟨ps, hps, -⟩ := Option.bind_eq_some_iff.mp hread
  have hwhere : Plain x.escapes "where ".toList := plain_text (by decide)
  obtain ⟨hspaced, htail⟩ := spaced_joinedSegs hwhere (given kwargs)
  have hvalues := joinedSegs_values "where ".toList (given kwargs)
  have htext : pieces x.escapes (quoted x.escapes (joinedSegs "where ".toList (given kwargs)).1 ++
      (joinedSegs "where ".toList (given kwargs)).2) = some ps := by
    rw [quoted_joinedSegs, ← whereClause_eq (List.ne_nil_of_mem hf), hps]
  apply plain_of_literals hspaced htail htext
  · intro seg hseg
    have hmem : seg.2 ∈ (joinedSegs "where ".toList (given kwargs)).1.map Prod.snd :=
      List.mem_map_of_mem hseg
    rw [hvalues] at hmem
    obtain ⟨g, hg, hseg⟩ := List.mem_flatMap.mp hmem
    exact literal_of_selects hps hread h hg hseg
  · rw [hvalues]
    exact List.mem_flatMap.mpr ⟨f, hf, hv⟩

/-- The where clause selects the rows that the filters say exactly when no value holds a quote or a
backslash. -/
theorem where_clause_selects_iff (x : Escaping) (kwargs : Kwargs) :
    (∃ o, readWhere x.escapes (whereClause kwargs) = some o ∧
        ∀ row, selects row o = true ↔ Selected kwargs row) ↔
      ∀ arg ∈ kwargs.args, ∀ value, arg.2 = some value →
        ∀ v ∈ value.values, ∀ c ∈ v, c ≠ quote ∧ c ≠ backslash := by
  constructor
  · rintro ⟨o, hread, h⟩ arg harg value hvalue
    exact plain_of_selects hread h (arg.1, value)
      (List.mem_filterMap.mpr ⟨arg, harg, by rw [hvalue]; rfl⟩)
  · intro h
    apply selects_of_plain
    intro f hf
    obtain ⟨arg, harg, hmap⟩ := List.mem_filterMap.mp hf
    obtain ⟨value, hvalue, rfl⟩ := Option.map_eq_some_iff.mp hmap
    exact h arg harg value hvalue

/-! ### A task id with quotes -/

def taskId : Column :=
  ⟨"task_id".toList, by decide, List.all_eq_true.mp (by decide), by decide⟩

/-- The task id `a' or task_id = 'b`. -/
def injected : Text := 'a' :: quote :: (" or task_id = ".toList ++ [quote, 'b'])

def injectedKwargs : Kwargs := ⟨[(taskId, some (.str injected))], by decide⟩

/-- The clause for that task id selects the rows of the tasks `a` and `b`. -/
theorem read_injected : readWhere keeping.escapes (whereClause injectedKwargs) =
    some (some (.or (.eq taskId.name ['a']) (.eq taskId.name ['b']))) := by
  decide +kernel

theorem where_clause_injected :
    ¬∀ (x : Escaping) (kwargs : Kwargs), ∃ o, readWhere x.escapes (whereClause kwargs) = some o ∧
      ∀ row, selects row o = true ↔ Selected kwargs row := by
  intro h
  obtain ⟨o, hread, hselects⟩ := h keeping injectedKwargs
  rw [read_injected, Option.some.injEq] at hread
  subst hread
  have hrow := (hselects fun _ => some ['a']).mp (by decide)
  obtain ⟨v, hv, ha⟩ := hrow _ List.mem_cons_self _ rfl
  obtain rfl := List.mem_singleton.mp hv
  exact absurd ha (by decide)

end YtScheduler.Filters
