import YtScheduler.Store.Filters

/-! Where clauses of plain values, which hold no quote and no backslash. They are read as they
were pasted, and select the rows that the filters say. A list without values cannot be read. -/

namespace YtScheduler.Filters

open Quoting

/-- The arguments that are not `None`. -/
def given (kwargs : Kwargs) : List (Column × FilterValue) :=
  kwargs.args.filterMap fun arg => arg.2.map fun value => (arg.1, value)

def pasted (filter : Column × FilterValue) : Text :=
  comparisonText (filter.1, processFilterValue filter.2)

def joined (fs : List (Column × FilterValue)) : Text := " and ".toList.intercalate (fs.map pasted)

theorem joined_singleton (f : Column × FilterValue) : joined [f] = pasted f :=
  List.intercalate_singleton

theorem joined_cons_cons (f g : Column × FilterValue) (fs : List (Column × FilterValue)) :
    joined (f :: g :: fs) = pasted f ++ (" and ".toList ++ joined (g :: fs)) := by
  rw [joined, List.map_cons, List.intercalate_cons_of_ne_nil (by simp), List.append_assoc]
  rfl

theorem filters_eq (kwargs : Kwargs) :
    filters kwargs = (given kwargs).map fun f => (f.1, processFilterValue f.2) := by
  have hfold : ∀ (args : List (Column × Option FilterValue)) (params : Params),
      args.foldl (fun params arg => setParam params arg.1 arg.2) params =
        params ++ (args.filterMap fun arg => arg.2.map fun value => (arg.1, value)).map
          fun f => (f.1, processFilterValue f.2) := by
    intro args
    induction args with
    | nil => simp
    | cons arg args ih =>
      intro params
      rw [List.foldl_cons, ih]
      cases harg : arg.2 with
      | none => simp [setParam, harg]
      | some value => simp [setParam, harg]
  exact hfold kwargs.args []

theorem filters_eq_filterMap (kwargs : Kwargs) :
    filters kwargs = (kwargs.args.map fun arg => (arg.1, arg.2.map processFilterValue)).filterMap
      fun filter => filter.2.map fun value => (filter.1, value) := by
  rw [filters_eq, given, List.map_filterMap, List.filterMap_map]
  congr 1
  funext arg
  simp [Option.map_map, Function.comp_def]

theorem whereClause_eq {kwargs : Kwargs} (h : given kwargs ≠ []) :
    whereClause kwargs = "where ".toList ++ joined (given kwargs) := by
  rw [whereClause, filters_eq]
  cases hfs : given kwargs with
  | nil => exact absurd hfs h
  | cons f fs =>
    have hmap : ((f :: fs).map fun f => (f.1, processFilterValue f.2)).map comparisonText =
        (f :: fs).map pasted := List.map_map
    rw [joined, ← hmap]
    rfl

theorem clauseOf_of_ne_nil {params : Params} (h : params ≠ []) :
    clauseOf params = "where ".toList ++ " and ".toList.intercalate (params.map comparisonText) := by
  cases params with
  | nil => exact absurd rfl h
  | cons param params => rfl

theorem whereClause_nil {kwargs : Kwargs} (h : given kwargs = []) : whereClause kwargs = [] := by
  rw [whereClause, filters_eq, h]
  rfl

/-! ### Plain values -/

section Plain

variable {x : Escaping}

theorem plain_text {t : Text} (h : (t.all fun c => decide (c ≠ quote ∧ c ≠ backslash)) = true) :
    Plain x.escapes t :=
  fun c hc => of_decide_eq_true (List.all_eq_true.mp h c hc)

theorem ne_of_isWord {c : Char} (h : isWord c = true) : c ≠ quote ∧ c ≠ backslash := by
  constructor
  · rintro rfl
    exact absurd h (by decide)
  · rintro rfl
    exact absurd h (by decide)

theorem Column.plain (column : Column) : Plain x.escapes column.name :=
  fun c hc => ne_of_isWord (column.isWord c hc)

/-- The tokens of a list in brackets, without the first bracket. -/
def listTokens : List Text → List Token
  | [] => [.symbol .closing]
  | [v] => [.literal v, .symbol .closing]
  | v :: vs => .literal v :: .symbol .comma :: listTokens vs

def filterTokens (filter : Column × FilterValue) : List Token :=
  match filter.2 with
  | .str v => [.word filter.1.name, .symbol .equals, .literal v]
  | .list vs => .word filter.1.name :: .word inWord :: .symbol .opening :: listTokens vs
  | .tuple vs => .word filter.1.name :: .word inWord :: .symbol .opening :: listTokens vs

def joinedTokens : List (Column × FilterValue) → List Token
  | [] => []
  | [f] => filterTokens f
  | f :: fs => filterTokens f ++ .word andWord :: joinedTokens fs

theorem lexes_name (column : Column) :
    Lexes x.escapes (column.name ++ " ".toList) [.word column.name] := by
  refine lexes_plain ?_ ?_
  · intro c hc
    rcases List.mem_append.mp hc with hc | hc
    · exact column.plain c hc
    · exact plain_text (by decide) c hc
  · rw [List.map_append, lex_append, lex_word column.isWord]
    simp [lex, lexPiece, flush, column.ne_nil, isWord]

theorem lexes_flatten {vs : List Text} (hne : vs ≠ []) (h : ∀ v ∈ vs, Plain x.escapes v) :
    Lexes x.escapes (", ".toList.intercalate (vs.map quoteValue) ++ ")".toList) (listTokens vs) := by
  induction vs with
  | nil => exact absurd rfl hne
  | cons v vs ih =>
    have hv : Lexes x.escapes (quoteValue v) [.literal v] := lexes_value (h v (by simp))
    cases vs with
    | nil =>
      have hclose : Lexes x.escapes ")".toList [.symbol .closing] :=
        lexes_plain (plain_text (by decide)) rfl
      rw [List.map_singleton, List.intercalate_singleton]
      exact hv.append hclose
    | cons u vs =>
      have hcomma : Lexes x.escapes ", ".toList [.symbol .comma] :=
        lexes_plain (plain_text (by decide)) rfl
      have hrest := ih (by simp) fun w hw => h w (by simp [hw])
      rw [List.map_cons, List.intercalate_cons_of_ne_nil (by simp), List.append_assoc,
        List.append_assoc]
      exact hv.append (hcomma.append hrest)

theorem lexes_list (column : Column) {type : ValueType} (htype : type.isListLike = true)
    {vs : List Text} (hne : vs ≠ []) (h : ∀ v ∈ vs, Plain x.escapes v) :
    Lexes x.escapes (comparisonText (column, type, flatten vs))
      (.word column.name :: .word inWord :: .symbol .opening :: listTokens vs) := by
  have hin : Lexes x.escapes "in (".toList [.word inWord, .symbol .opening] :=
    lexes_plain (plain_text (by decide)) rfl
  have htext : comparisonText (column, type, flatten vs) = (column.name ++ " ".toList) ++
      ("in (".toList ++ (", ".toList.intercalate (vs.map quoteValue) ++ ")".toList)) := by
    simp [comparisonText, htype, flatten]
  rw [htext]
  exact (lexes_name column).append (hin.append (lexes_flatten hne h))

theorem lexes_pasted {f : Column × FilterValue} (h : ∀ v ∈ f.2.values, Plain x.escapes v) :
    Lexes x.escapes (pasted f) (filterTokens f) := by
  obtain ⟨column, value⟩ := f
  cases value with
  | str v =>
    have heq : Lexes x.escapes "= ".toList [.symbol .equals] :=
      lexes_plain (plain_text (by decide)) rfl
    have htext : pasted (column, .str v) =
        (column.name ++ " ".toList) ++ ("= ".toList ++ quoteValue v) := by
      simp [pasted, comparisonText, processFilterValue, ValueType.isListLike]
    rw [htext]
    exact (lexes_name column).append (heq.append (lexes_value (h v (by simp [FilterValue.values]))))
  | list vs => exact lexes_list column rfl vs.2 h
  | tuple vs => exact lexes_list column rfl vs.2 h

theorem lexes_joined {fs : List (Column × FilterValue)} (hne : fs ≠ [])
    (h : ∀ f ∈ fs, ∀ v ∈ f.2.values, Plain x.escapes v) :
    Lexes x.escapes (joined fs) (joinedTokens fs) := by
  induction fs with
  | nil => exact absurd rfl hne
  | cons f fs ih =>
    have hf := lexes_pasted (h f (by simp))
    cases fs with
    | nil =>
      rw [joined_singleton]
      exact hf
    | cons g fs =>
      have hand : Lexes x.escapes " and ".toList [.word andWord] :=
        lexes_plain (plain_text (by decide)) rfl
      have hrest := ih (by simp) fun f' hf' => h f' (by simp [hf'])
      rw [joined_cons_cons]
      exact hf.append (hand.append hrest)

/-! ### The condition of plain values -/

def filterCondition (filter : Column × FilterValue) : Condition :=
  match filter.2 with
  | .str v => .eq filter.1.name v
  | .list vs => .mem filter.1.name vs
  | .tuple vs => .mem filter.1.name vs

def joinedCondition : Column × FilterValue → List (Column × FilterValue) → Condition
  | f, [] => filterCondition f
  | f, g :: fs => .and (filterCondition f) (joinedCondition g fs)

theorem literalList_tokens {vs : List Text} (hne : vs ≠ []) (rest : List Token) :
    literalList (listTokens vs ++ rest) = some (vs, rest) := by
  induction vs with
  | nil => exact absurd rfl hne
  | cons v vs ih =>
    cases vs with
    | nil => rfl
    | cons u vs =>
      rw [listTokens, List.cons_append, List.cons_append, literalList, ih (by simp)]
      · rfl
      · simp

theorem parse_word (column : Column) (n : ℕ) (ts : List Token) :
    parse (n + 1) .unit (.word column.name :: ts) = comparison column.name ts := by
  have hnot : column.name ≠ notWord := by
    intro h
    have hkey := column.not_keyword
    rw [h] at hkey
    exact absurd hkey (by decide)
  rw [parse, if_neg hnot, if_neg (by simp [column.not_keyword])]

theorem parse_filter (f : Column × FilterValue) (n : ℕ) (rest : List Token) :
    parse (n + 1) .unit (filterTokens f ++ rest) = some (filterCondition f, rest) := by
  have hlist : ∀ vs : {vs : List Text // vs ≠ []},
      comparison f.1.name (.word inWord :: .symbol .opening :: (listTokens vs ++ rest)) =
        some (.mem f.1.name vs, rest) := by
    intro vs
    rw [comparison, if_pos rfl, literalList_tokens vs.2]
    rfl
  obtain ⟨column, value⟩ := f
  cases value with
  | str v => exact parse_word column n _
  | list vs => exact (parse_word column n _).trans (hlist vs)
  | tuple vs => exact (parse_word column n _).trans (hlist vs)

theorem parse_joined (f : Column × FilterValue) (fs : List (Column × FilterValue)) {n : ℕ}
    (hn : fs.length + 2 ≤ n) :
    parse n .conj (joinedTokens (f :: fs)) = some (joinedCondition f fs, []) := by
  induction fs generalizing f n with
  | nil =>
    obtain ⟨n, rfl⟩ : ∃ m, n = m + 2 := ⟨n - 2, by simp at hn; omega⟩
    have hf := parse_filter f n []
    rw [List.append_nil] at hf
    rw [joinedTokens, parse, hf]
    rfl
  | cons g fs ih =>
    rw [List.length_cons] at hn
    obtain ⟨n, rfl⟩ : ∃ m, n = m + 2 := ⟨n - 2, by omega⟩
    rw [joinedTokens, parse, parse_filter, Option.bind_some]
    · simp only [Quoting.joined, if_true]
      rw [ih g (by omega)]
      rfl
    · simp

theorem length_le_joinedTokens (fs : List (Column × FilterValue)) (f : Column × FilterValue) :
    fs.length ≤ (joinedTokens (f :: fs)).length := by
  induction fs generalizing f with
  | nil => exact Nat.zero_le _
  | cons g fs ih =>
    have hrest := ih g
    rw [joinedTokens, List.length_append, List.length_cons, List.length_cons]
    · omega
    · simp

theorem read_joined (f : Column × FilterValue) (fs : List (Column × FilterValue)) :
    readTokens ([.word whereWord] ++ joinedTokens (f :: fs)) = some (some (joinedCondition f fs)) := by
  have hlen := length_le_joinedTokens fs f
  rw [List.singleton_append, readTokens, if_pos rfl, parse, parse_joined f fs (by omega)]
  rfl

theorem holds_filterCondition {f : Column × FilterValue} {row : Row} :
    (filterCondition f).holds row = true ↔ ∃ v ∈ f.2.values, row f.1.name = some v := by
  obtain ⟨column, value⟩ := f
  cases value <;> simp [filterCondition, Condition.holds, FilterValue.values]

theorem holds_joinedCondition {f : Column × FilterValue} {fs : List (Column × FilterValue)}
    {row : Row} : (joinedCondition f fs).holds row = true ↔
      ∀ g ∈ f :: fs, ∃ v ∈ g.2.values, row g.1.name = some v := by
  induction fs generalizing f with
  | nil => rw [joinedCondition, holds_filterCondition, List.forall_mem_singleton]
  | cons g fs ih =>
    rw [joinedCondition, Condition.holds, Bool.and_eq_true, ih, holds_filterCondition,
      List.forall_mem_cons (l := g :: fs)]

end Plain

theorem selected_iff {kwargs : Kwargs} {row : Row} :
    Selected kwargs row ↔ ∀ f ∈ given kwargs, ∃ v ∈ f.2.values, row f.1.name = some v := by
  constructor
  · intro h f hf
    obtain ⟨arg, harg, hmap⟩ := List.mem_filterMap.mp hf
    obtain ⟨value, hvalue, rfl⟩ := Option.map_eq_some_iff.mp hmap
    exact h arg harg value hvalue
  · intro h arg harg value hvalue
    exact h (arg.1, value) (List.mem_filterMap.mpr ⟨arg, harg, by rw [hvalue]; rfl⟩)

/-- With plain values the clause selects the rows that the filters say. -/
theorem selects_of_plain {x : Escaping} {kwargs : Kwargs}
    (h : ∀ f ∈ given kwargs, ∀ v ∈ f.2.values, Plain x.escapes v) :
    ∃ o, readWhere x.escapes (whereClause kwargs) = some o ∧
      ∀ row, selects row o = true ↔ Selected kwargs row := by
  cases hfs : given kwargs with
  | nil =>
    refine ⟨none, ?_, ?_⟩
    · rw [whereClause_nil hfs]
      rfl
    · intro row
      simp [selected_iff, hfs, selects]
  | cons f fs =>
    rw [hfs] at h
    have hwhere : Lexes x.escapes "where ".toList [.word whereWord] :=
      lexes_plain (plain_text (by decide)) rfl
    have hread := (hwhere.append (lexes_joined (List.cons_ne_nil f fs) h)).readWhere
    refine ⟨some (joinedCondition f fs), ?_, ?_⟩
    · rw [whereClause_eq (by simp [hfs]), hfs, hread, read_joined]
    · intro row
      rw [selected_iff, hfs]
      exact holds_joinedCondition

/-! ### Lists without values -/

theorem intercalate_first {α : Type} (sep y : List α) (zs : List (List α)) :
    sep.intercalate (y :: zs) = y ++ zs.flatMap (sep ++ ·) := by
  induction zs generalizing y with
  | nil => simp
  | cons z zs ih =>
    rw [List.intercalate_cons_of_ne_nil (List.cons_ne_nil z zs), ih, List.flatMap_cons,
      List.append_assoc, List.append_assoc]

theorem intercalate_middle {α : Type} (sep y : List α) (xs zs : List (List α)) :
    sep.intercalate (xs ++ y :: zs) = xs.flatMap (· ++ sep) ++ (y ++ zs.flatMap (sep ++ ·)) := by
  induction xs with
  | nil => exact intercalate_first sep y zs
  | cons x xs ih =>
    rw [List.cons_append, List.intercalate_cons_of_ne_nil (by simp), ih, List.flatMap_cons,
      List.append_assoc, List.append_assoc, List.append_assoc]

section Empty

variable {x : Escaping}

/-- The tokens of filters before another one. -/
def tokensBefore (fs : List (Column × FilterValue)) : List Token :=
  fs.flatMap fun f => filterTokens f ++ [.word andWord]

def tokensAfter (fs : List (Column × FilterValue)) : List Token :=
  fs.flatMap fun f => .word andWord :: filterTokens f

def emptyTokens (column : Column) : List Token :=
  [.word column.name, .word inWord, .symbol .opening, .symbol .closing]

theorem lexes_nil : Lexes x.escapes [] [] := lexes_plain (fun _ h => absurd h List.not_mem_nil) rfl

theorem lexes_and : Lexes x.escapes " and ".toList [.word andWord] :=
  lexes_plain (plain_text (by decide)) rfl

theorem lexes_before {fs : List (Column × FilterValue)}
    (h : ∀ f ∈ fs, ∀ v ∈ f.2.values, Plain x.escapes v) :
    Lexes x.escapes ((fs.map pasted).flatMap (· ++ " and ".toList)) (tokensBefore fs) := by
  induction fs with
  | nil => exact lexes_nil
  | cons f fs ih =>
    have hf := (lexes_pasted (h f (by simp))).append lexes_and
    exact hf.append (ih fun g hg => h g (by simp [hg]))

theorem lexes_after {fs : List (Column × FilterValue)}
    (h : ∀ f ∈ fs, ∀ v ∈ f.2.values, Plain x.escapes v) :
    Lexes x.escapes ((fs.map pasted).flatMap (" and ".toList ++ ·)) (tokensAfter fs) := by
  induction fs with
  | nil => exact lexes_nil
  | cons f fs ih =>
    have hf := lexes_and.append (lexes_pasted (h f (by simp)))
    exact hf.append (ih fun g hg => h g (by simp [hg]))

theorem lexes_empty (column : Column) :
    Lexes x.escapes (comparisonText (column, .list, flatten [])) (emptyTokens column) := by
  have hin : Lexes x.escapes "in ()".toList [.word inWord, .symbol .opening, .symbol .closing] :=
    lexes_plain (plain_text (by decide)) rfl
  have htext : comparisonText (column, .list, flatten []) =
      (column.name ++ " ".toList) ++ "in ()".toList := by
    simp [comparisonText, ValueType.isListLike, flatten]
  rw [htext]
  exact (lexes_name column).append hin

theorem parse_unit_empty (column : Column) (n : ℕ) (rest : List Token) :
    parse n .unit (emptyTokens column ++ rest) = none := by
  cases n with
  | zero => rfl
  | succ n =>
    rw [emptyTokens, List.cons_append, parse_word]
    rfl

/-- The conjunction stops at the list without values. -/
theorem parse_empty (column : Column) (fs : List (Column × FilterValue)) (n : ℕ)
    (rest : List Token) :
    parse n .conj (tokensBefore fs ++ (emptyTokens column ++ rest)) = none := by
  induction fs generalizing n with
  | nil =>
    cases n with
    | zero => rfl
    | succ n =>
      rw [tokensBefore, List.flatMap_nil, List.nil_append, parse, parse_unit_empty]
      rfl
  | cons f fs ih =>
    cases n with
    | zero => rfl
    | succ n =>
      cases n with
      | zero => rfl
      | succ n =>
        rw [tokensBefore, List.flatMap_cons, List.append_assoc, List.append_assoc, parse, parse_filter,
          Option.bind_some]
        simp only [Quoting.joined, List.cons_append, List.nil_append, if_true]
        rw [← tokensBefore, ih]
        rfl

/-- A clause with a list without values cannot be read. -/
theorem readWhere_of_empty {kwargs kwargs' : Kwargs} (column : Column)
    (h : ∀ f ∈ given kwargs, ∀ v ∈ f.2.values, Plain x.escapes v)
    (h' : ∀ f ∈ given kwargs', ∀ v ∈ f.2.values, Plain x.escapes v) :
    readWhere x.escapes
      (clauseOf (filters kwargs ++ (column, .list, flatten []) :: filters kwargs')) = none := by
  have htexts : ∀ K : Kwargs, (filters K).map comparisonText = (given K).map pasted := by
    intro K
    rw [filters_eq, List.map_map]
    rfl
  have hclause : clauseOf (filters kwargs ++ (column, .list, flatten []) :: filters kwargs') =
      "where ".toList ++ (((given kwargs).map pasted).flatMap (· ++ " and ".toList) ++
        (comparisonText (column, .list, flatten []) ++
          ((given kwargs').map pasted).flatMap (" and ".toList ++ ·))) := by
    rw [clauseOf_of_ne_nil (by simp), List.map_append, List.map_cons, htexts, htexts,
      intercalate_middle]
  have hwhere : Lexes x.escapes "where ".toList [.word whereWord] :=
    lexes_plain (plain_text (by decide)) rfl
  have hlexes := hwhere.append ((lexes_before h).append ((lexes_empty column).append (lexes_after h')))
  rw [hclause, hlexes.readWhere, List.singleton_append, readTokens, if_pos rfl, parse, parse_empty]
  rfl

end Empty

end YtScheduler.Filters
