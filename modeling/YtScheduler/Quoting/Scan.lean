import Mathlib.Data.List.DropRight
import Mathlib.Data.List.MinMax

/-! Texts with quoted literals. A literal starts at a quote and ends at the next one that is
not escaped. The scanner cuts a text into the characters outside literals and the
values of the literals. -/

namespace YtScheduler.Quoting

/-- The quote, the escape character, and what an escaped character stands for. No other character
stands for one of these two. -/
structure Escapes (χ : Type) where
  quote : χ
  backslash : χ
  of : χ → χ
  quote_ne : quote ≠ backslash
  of_ne : ∀ c, c ≠ quote → c ≠ backslash → of c ≠ quote ∧ of c ≠ backslash

inductive Piece (χ : Type)
  | char (c : χ)
  | literal (v : List χ)

def Piece.literal? {χ : Type} : Piece χ → Option (List χ)
  | .char _ => none
  | .literal v => some v

/-- Where the scanner is: outside a literal, inside one, or behind its escape character. -/
inductive Place (χ : Type)
  | outside
  | inside (v : List χ)
  | escaped (v : List χ)

variable {χ : Type} [DecidableEq χ] (E : Escapes χ)

def step : Place χ → χ → List (Piece χ) × Place χ
  | .outside, c => if c = E.quote then ([], .inside []) else ([.char c], .outside)
  | .inside v, c =>
    if c = E.quote then ([.literal v], .outside)
    else if c = E.backslash then ([], .escaped v)
    else ([], .inside (v ++ [c]))
  | .escaped v, c => ([], .inside (v ++ [E.of c]))

def scan : Place χ → List χ → List (Piece χ) × Place χ
  | s, [] => ([], s)
  | s, c :: cs => ((step E s c).1 ++ (scan (step E s c).2 cs).1, (scan (step E s c).2 cs).2)

/-- The pieces of a text whose literals are all closed. -/
def pieces (text : List χ) : Option (List (Piece χ)) :=
  match scan E .outside text with
  | (ps, .outside) => some ps
  | _ => none

/-- No quote and no escape character. -/
def Plain (v : List χ) : Prop := ∀ c ∈ v, c ≠ E.quote ∧ c ≠ E.backslash

instance (v : List χ) : Decidable (Plain E v) :=
  inferInstanceAs (Decidable (∀ c ∈ v, c ≠ E.quote ∧ c ≠ E.backslash))

/-- The number of characters up to the last quote or escape character. -/
def depth (v : List χ) : ℕ :=
  (v.rdropWhile fun c => c ≠ E.quote ∧ c ≠ E.backslash).length

variable {E} {s : Place χ} {u v w : List χ} {c : χ}

theorem scan_append (v w : List χ) :
    scan E s (v ++ w) = ((scan E s v).1 ++ (scan E (scan E s v).2 w).1, (scan E (scan E s v).2 w).2) := by
  induction v generalizing s with
  | nil => rfl
  | cons c v ih => simp [scan, ih]

theorem scan_outside_plain (h : Plain E v) : scan E .outside v = (v.map .char, .outside) := by
  induction v with
  | nil => rfl
  | cons c v ih =>
    have hc : step E .outside c = ([.char c], .outside) := if_neg (h c (by simp)).1
    rw [scan, hc, ih fun x hx => h x (by simp [hx])]
    rfl

theorem scan_inside_plain (h : Plain E v) : scan E (.inside u) v = ([], .inside (u ++ v)) := by
  induction v generalizing u with
  | nil => simp [scan]
  | cons c v ih =>
    obtain ⟨hq, hb⟩ := h c (by simp)
    have hc : step E (.inside u) c = ([], .inside (u ++ [c])) := by
      rw [step, if_neg hq, if_neg hb]
    rw [scan, hc, ih fun x hx => h x (by simp [hx])]
    simp

theorem scan_quote : scan E s [E.quote] = step E s E.quote := by
  simp [scan]

/-! ### Depth -/

theorem depth_eq_zero : depth E v = 0 ↔ Plain E v := by
  simp [depth, List.rdropWhile_eq_nil_iff, Plain]

theorem depth_le_length : depth E v ≤ v.length :=
  (List.rdropWhile_prefix _ _).length_le

theorem depth_concat_plain (hq : c ≠ E.quote) (hb : c ≠ E.backslash) :
    depth E (v ++ [c]) = depth E v := by
  rw [depth, List.rdropWhile_concat_pos _ _ _ (by simp [hq, hb]), depth]

theorem depth_concat_le : depth E (v ++ [c]) ≤ v.length + 1 := by
  simpa using depth_le_length (E := E) (v := v ++ [c])

theorem depth_concat_special (h : c = E.quote ∨ c = E.backslash) :
    depth E (v ++ [c]) = v.length + 1 := by
  rw [depth, List.rdropWhile_concat_neg _ _ _ (by rcases h with rfl | rfl <;> simp)]
  simp

theorem depth_le_concat : depth E v ≤ depth E (v ++ [c]) := by
  by_cases h : c = E.quote ∨ c = E.backslash
  · rw [depth_concat_special h]
    exact depth_le_length.trans (Nat.le_succ _)
  · rw [not_or] at h
    exact (depth_concat_plain h.1 h.2).ge

theorem depth_append_plain (h : Plain E w) : depth E (v ++ w) = depth E v := by
  induction w using List.reverseRecOn with
  | nil => rw [List.append_nil]
  | append_singleton w c ih =>
    obtain ⟨hq, hb⟩ := h c (by simp)
    rw [← List.append_assoc, depth_concat_plain hq hb]
    exact ih fun x hx => h x (by simp [hx])

/-! ### A value between two quotes

A literal that is read inside a value is less deep than the value. The one that the closing quote
does not close, because the value ends with the escape character, is no deeper. -/

variable (E) in
/-- What the scanner holds after the part `p` of a value. -/
def Within (p : List χ) : Place χ → Prop
  | .outside => True
  | .inside a => a.length ≤ p.length ∧ (depth E a = 0 ∨ depth E a < depth E p)
  | .escaped a => a.length < p.length ∧ (depth E a = 0 ∨ depth E a < depth E p) ∧
      p.getLast? = some E.backslash

theorem within_step (h : Within E u s) (c : χ) :
    Within E (u ++ [c]) (step E s c).2 ∧
      ∀ a, .literal a ∈ (step E s c).1 → depth E a = 0 ∨ depth E a < depth E (u ++ [c]) := by
  have hle := depth_le_concat (E := E) (v := u) (c := c)
  cases s with
  | outside =>
    rw [step]
    split_ifs with hq
    · exact ⟨⟨Nat.zero_le _, Or.inl (depth_eq_zero.mpr (by simp [Plain]))⟩, by simp⟩
    · exact ⟨trivial, by simp⟩
  | inside a =>
    obtain ⟨hlen, hdepth⟩ := h
    rw [step]
    split_ifs with hq hb
    · refine ⟨trivial, ?_⟩
      intro b hb
      obtain rfl : b = a := by simpa using hb
      omega
    · refine ⟨⟨?_, by omega, ?_⟩, by simp⟩
      · simp only [List.length_append, List.length_singleton]
        omega
      · simp [hb]
    · refine ⟨⟨by simpa using hlen, ?_⟩, by simp⟩
      rw [depth_concat_plain hq hb]
      omega
  | escaped a =>
    obtain ⟨hlen, hdepth, hlast⟩ := h
    refine ⟨⟨by simp only [List.length_append, List.length_singleton]; omega, ?_⟩, by simp [step]⟩
    by_cases hc : c = E.quote ∨ c = E.backslash
    · right
      rw [depth_concat_special hc]
      have hsucc := depth_concat_le (E := E) (v := a) (c := E.of c)
      omega
    · rw [not_or] at hc
      obtain ⟨hoq, hob⟩ := E.of_ne c hc.1 hc.2
      rw [depth_concat_plain hoq hob]
      omega

theorem depth_le_append : depth E u ≤ depth E (u ++ v) := by
  induction v using List.reverseRecOn with
  | nil => rw [List.append_nil]
  | append_singleton v c ih =>
    rw [← List.append_assoc]
    exact ih.trans depth_le_concat

theorem within_scan (h : Within E u s) (v : List χ) :
    Within E (u ++ v) (scan E s v).2 ∧
      ∀ a, .literal a ∈ (scan E s v).1 → depth E a = 0 ∨ depth E a < depth E (u ++ v) := by
  induction v generalizing u s with
  | nil => exact ⟨by simpa [scan] using h, by simp [scan]⟩
  | cons c v ih =>
    obtain ⟨hstep, hlit⟩ := within_step h c
    obtain ⟨hscan, hlits⟩ := ih hstep
    rw [List.append_assoc, List.singleton_append] at hscan hlits
    refine ⟨hscan, ?_⟩
    intro a ha
    rcases List.mem_append.mp ha with ha | ha
    · have hle := depth_le_append (E := E) (u := u ++ [c]) (v := v)
      rw [List.append_assoc, List.singleton_append] at hle
      rcases hlit a ha with h0 | hlt
      · exact Or.inl h0
      · exact Or.inr (hlt.trans_le hle)
    · exact hlits a ha

variable (E) in
/-- An unfinished literal between two values: empty, or left open by a value. -/
def Pending (vs : List (List χ)) : Place χ → Prop
  | .outside => True
  | .inside a => a = [] ∨ ∃ v ∈ vs, v.getLast? = some E.backslash ∧ depth E a ≤ depth E v
  | .escaped _ => False

variable (E) in
/-- Where a literal of the text comes from. -/
def Accounted (vs : List (List χ)) (a : List χ) : Prop :=
  depth E a = 0 ∨ ∃ v ∈ vs, depth E a < depth E v ∨
    (v.getLast? = some E.backslash ∧ depth E a ≤ depth E v ∧ a.getLast? ≠ some E.backslash)

variable {vs : List (List χ)}

/-- The quote after a value. -/
theorem close_value (h : Within E v s) (hv : v ∈ vs) :
    Pending E vs (step E s E.quote).2 ∧
      ∀ a, .literal a ∈ (step E s E.quote).1 → Accounted E vs a := by
  cases s with
  | outside => simp [step, Pending]
  | inside a =>
    refine ⟨by simp [step, Pending], ?_⟩
    intro b hb
    obtain rfl : b = a := by simpa [step] using hb
    rcases h.2 with h0 | hlt
    · exact Or.inl h0
    · exact Or.inr ⟨v, hv, Or.inl hlt⟩
  | escaped a =>
    obtain ⟨hlen, -, hlast⟩ := h
    refine ⟨Or.inr ⟨v, hv, hlast, ?_⟩, by simp [step]⟩
    obtain ⟨p, rfl⟩ := List.getLast?_eq_some_iff.mp hlast
    rw [depth_concat_special (Or.inr rfl)]
    have hsucc := depth_concat_le (E := E) (v := a) (c := E.of E.quote)
    simp only [List.length_append, List.length_singleton] at hlen
    omega

/-- The text between two values, which is not empty, and the quote after it. -/
theorem open_value (h : Pending E vs s) {g : List χ} (hg : Plain E g) (hne : g ≠ []) :
    Within E [] (scan E s (g ++ [E.quote])).2 ∧
      ∀ a, .literal a ∈ (scan E s (g ++ [E.quote])).1 → Accounted E vs a := by
  have hempty : Within E ([] : List χ) (.inside []) :=
    ⟨le_rfl, Or.inl (depth_eq_zero.mpr (by simp [Plain]))⟩
  rw [scan_append, scan_quote]
  cases s with
  | outside =>
    rw [scan_outside_plain hg]
    simp [step, hempty]
  | inside a =>
    rw [scan_inside_plain hg]
    simp only [step, if_true, List.nil_append, List.mem_singleton, Piece.literal.injEq]
    refine ⟨trivial, ?_⟩
    rintro b rfl
    rw [Accounted, depth_append_plain hg]
    rcases h with rfl | ⟨v, hv, hlast, hdepth⟩
    · exact Or.inl (depth_eq_zero.mpr (by simp [Plain]))
    · refine Or.inr ⟨v, hv, Or.inr ⟨hlast, hdepth, ?_⟩⟩
      intro hend
      rw [List.getLast?_append_of_ne_nil _ hne] at hend
      exact (hg _ (List.mem_of_getLast? hend)).2 rfl
  | escaped a => exact h.elim

/-! ### Texts of quoted values -/

variable (E) in
/-- Values in quotes, each after a text of its own. -/
def quoted (segs : List (List χ × List χ)) : List χ :=
  segs.flatMap fun seg => seg.1 ++ E.quote :: (seg.2 ++ [E.quote])

/-- Every literal of a text of quoted values is accounted for by one of the values. -/
theorem scan_quoted {segs : List (List χ × List χ)} (h : Pending E vs s)
    (hsegs : ∀ seg ∈ segs, Plain E seg.1 ∧ seg.1 ≠ [] ∧ seg.2 ∈ vs) :
    Pending E vs (scan E s (quoted E segs)).2 ∧
      ∀ a, .literal a ∈ (scan E s (quoted E segs)).1 → Accounted E vs a := by
  induction segs generalizing s with
  | nil => exact ⟨h, by simp [quoted, scan]⟩
  | cons seg segs ih =>
    obtain ⟨hg, hne, hv⟩ := hsegs seg (by simp)
    obtain ⟨hopen, hlit₁⟩ := open_value h hg hne
    obtain ⟨hvalue, hlit₂⟩ := within_scan hopen seg.2
    obtain ⟨hclose, hlit₃⟩ := close_value hvalue hv
    obtain ⟨hrest, hlit₄⟩ := ih hclose fun x hx => hsegs x (by simp [hx])
    have htext : quoted E (seg :: segs) =
        (seg.1 ++ [E.quote]) ++ (seg.2 ++ ([E.quote] ++ quoted E segs)) := by
      simp [quoted]
    rw [htext, scan_append (seg.1 ++ [E.quote]), scan_append seg.2, scan_append [E.quote], scan_quote]
    refine ⟨hrest, ?_⟩
    intro a ha
    simp only [List.mem_append] at ha
    rcases ha with ha | ha | ha | ha
    · exact hlit₁ a ha
    · rcases hlit₂ a ha with h0 | hlt
      · exact Or.inl h0
      · exact Or.inr ⟨seg.2, hv, Or.inl hlt⟩
    · exact hlit₃ a ha
    · exact hlit₄ a ha

theorem scan_of_pieces {text : List χ} {ps : List (Piece χ)} (h : pieces E text = some ps) :
    scan E .outside text = (ps, .outside) := by
  unfold pieces at h
  split at h
  · rename_i hscan
    cases h
    exact hscan
  · cases h

/-- The text after the last value closes no literal. -/
theorem accounted_of_pieces {segs : List (List χ × List χ)} {tail : List χ} {ps : List (Piece χ)}
    (hsegs : ∀ seg ∈ segs, Plain E seg.1 ∧ seg.1 ≠ []) (htail : Plain E tail)
    (hps : pieces E (quoted E segs ++ tail) = some ps) {a : List χ} (ha : .literal a ∈ ps) :
    Accounted E (segs.map Prod.snd) a := by
  have houtside : Pending E (segs.map Prod.snd) .outside := trivial
  obtain ⟨hpending, hlit⟩ := scan_quoted houtside fun seg hseg =>
    ⟨(hsegs seg hseg).1, (hsegs seg hseg).2, List.mem_map_of_mem hseg⟩
  have hscan := congrArg Prod.fst (scan_of_pieces hps)
  rw [scan_append] at hscan
  subst hscan
  rcases List.mem_append.mp ha with ha | ha
  · exact hlit a ha
  · cases hplace : (scan E .outside (quoted E segs)).2 with
    | outside =>
      rw [hplace, scan_outside_plain htail] at ha
      simp at ha
    | inside b =>
      rw [hplace, scan_inside_plain htail] at ha
      simp at ha
    | escaped b =>
      rw [hplace] at hpending
      exact hpending.elim

/-- A text in which every value is read as a literal has plain values only: the deepest value that
is not plain could only be read where another one, just as deep, ends with the escape character,
and that one could be read nowhere. -/
theorem plain_of_literals {segs : List (List χ × List χ)} {tail : List χ} {ps : List (Piece χ)}
    (hsegs : ∀ seg ∈ segs, Plain E seg.1 ∧ seg.1 ≠ []) (htail : Plain E tail)
    (hps : pieces E (quoted E segs ++ tail) = some ps)
    (h : ∀ seg ∈ segs, .literal seg.2 ∈ ps) : ∀ v ∈ segs.map Prod.snd, Plain E v := by
  have hacc : ∀ v ∈ segs.map Prod.snd, Accounted E (segs.map Prod.snd) v := by
    intro v hv
    obtain ⟨seg, hseg, rfl⟩ := List.mem_map.mp hv
    exact accounted_of_pieces hsegs htail hps (h seg hseg)
  intro v₀ hv₀
  by_contra hdeep
  obtain ⟨v, hv, hmax⟩ : ∃ v ∈ segs.map Prod.snd, ∀ u ∈ segs.map Prod.snd, depth E u ≤ depth E v := by
    cases hv : (segs.map Prod.snd).argmax (depth E) with
    | none => simp [List.argmax_eq_none.mp hv] at hv₀
    | some v =>
      exact ⟨v, List.argmax_mem hv, fun u hu => List.le_of_mem_argmax hu hv⟩
  have hpos : depth E v ≠ 0 := by
    intro h0
    exact hdeep (depth_eq_zero.mp (Nat.le_zero.mp (h0 ▸ hmax v₀ hv₀)))
  rcases hacc v hv with h0 | ⟨u, hu, hlt | ⟨hlast, hle, -⟩⟩
  · exact hpos h0
  · exact absurd (hmax u hu) (not_le.mpr hlt)
  · rcases hacc u hu with h0 | ⟨u', hu', hlt | ⟨-, -, hend⟩⟩
    · omega
    · exact absurd (hmax u' hu') (by omega)
    · exact hend hlast

/-- A plain value in quotes is read as it was written. -/
theorem scan_plain_value (h : Plain E v) :
    scan E .outside (E.quote :: (v ++ [E.quote])) = ([.literal v], .outside) := by
  rw [scan, scan_append, step, if_pos rfl, scan_inside_plain h, scan_quote]
  simp [step]

end YtScheduler.Quoting
