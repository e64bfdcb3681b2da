import YtScheduler.Quoting.Scan

/-! Conditions of a query language: comparisons of a column with a literal or a list of
literals, and their combinations. A condition knows a string only by the literals that it
is equal to. -/

namespace YtScheduler.Quoting

abbrev Text := List Char

inductive Symbol
  | equals
  | comma
  | opening
  | closing
  deriving DecidableEq

inductive Token
  | word (w : Text)
  | symbol (s : Symbol)
  | literal (v : Text)
  deriving DecidableEq

/-! ### Tokens -/

def symbolOf : Char → Option Symbol
  | '=' => some .equals
  | ',' => some .comma
  | '(' => some .opening
  | ')' => some .closing
  | _ => none

/-- A character of a name or a keyword. -/
def isWord (c : Char) : Bool := c.isAlphanum || c = '_'

/-- The word before a token, if there is one. -/
def flush (w : Text) : List Token := if w = [] then [] else [.word w]

def lexPiece (w : Text) : Piece Char → Option (List Token × Text)
  | .literal v => some (flush w ++ [.literal v], [])
  | .char c =>
    if isWord c then some ([], w ++ [c])
    else if c.isWhitespace then some (flush w, [])
    else (symbolOf c).map fun s => (flush w ++ [.symbol s], [])

/-- The tokens of some pieces behind the characters of a word, and the word that is left. -/
def lex : Text → List (Piece Char) → Option (List Token × Text)
  | w, [] => some ([], w)
  | w, p :: ps =>
    (lexPiece w p).bind fun out => (lex out.2 ps).map fun out' => (out.1 ++ out'.1, out'.2)

def tokens (ps : List (Piece Char)) : Option (List Token) :=
  (lex [] ps).map fun out => out.1 ++ flush out.2

/-! ### Conditions -/

inductive Condition
  | eq (column : Text) (v : Text)
  | mem (column : Text) (vs : List Text)
  | not (c : Condition)
  | and (c d : Condition)
  | or (c d : Condition)
  deriving DecidableEq

/-- The columns of a row. A column may be null. -/
abbrev Row := Text → Option Text

def Condition.holds (row : Row) : Condition → Bool
  | .eq column v => row column = some v
  | .mem column vs => vs.any fun v => row column = some v
  | .not c => !c.holds row
  | .and c d => c.holds row && d.holds row
  | .or c d => c.holds row || d.holds row

def Condition.literals : Condition → List Text
  | .eq _ v => [v]
  | .mem _ vs => vs
  | .not c => c.literals
  | .and c d => c.literals ++ d.literals
  | .or c d => c.literals ++ d.literals

/-- Rows that no literal of a condition tells apart satisfy it alike. -/
theorem Condition.holds_congr {c : Condition} {row row' : Row}
    (h : ∀ v ∈ c.literals, ∀ column, row column = some v ↔ row' column = some v) :
    c.holds row = c.holds row' := by
  induction c with
  | eq column v =>
    simp only [holds]
    rw [decide_eq_decide]
    exact h v (by simp [literals]) column
  | mem column vs =>
    simp only [holds]
    rw [Bool.eq_iff_iff]
    simp only [List.any_eq_true, decide_eq_true_eq]
    constructor
    · rintro ⟨v, hv, hrow⟩
      exact ⟨v, hv, (h v hv column).mp hrow⟩
    · rintro ⟨v, hv, hrow⟩
      exact ⟨v, hv, (h v hv column).mpr hrow⟩
  | not c ih => rw [holds, holds, ih h]
  | and c d ihc ihd =>
    rw [holds, holds, ihc fun v hv => h v (List.mem_append_left _ hv),
      ihd fun v hv => h v (List.mem_append_right _ hv)]
  | or c d ihc ihd =>
    rw [holds, holds, ihc fun v hv => h v (List.mem_append_left _ hv),
      ihd fun v hv => h v (List.mem_append_right _ hv)]

/-! ### Grammar -/

def whereWord : Text := "where".toList

def andWord : Text := "and".toList

def orWord : Text := "or".toList

def notWord : Text := "not".toList

def inWord : Text := "in".toList

/-- A word that is no column. -/
def isKeyword (w : Text) : Bool := w ∈ [whereWord, andWord, orWord, notWord, inWord]

/-- The literals of a list, up to its closing bracket. -/
def literalList : List Token → Option (List Text × List Token)
  | .literal v :: .symbol .closing :: ts => some ([v], ts)
  | .literal v :: .symbol .comma :: ts => (literalList ts).map fun out => (v :: out.1, out.2)
  | _ => none

/-- A comparison of the column `w`. -/
def comparison (w : Text) : List Token → Option (Condition × List Token)
  | .symbol .equals :: .literal v :: ts => some (.eq w v, ts)
  | .word i :: .symbol .opening :: ts =>
    if i = inWord then (literalList ts).map fun out => (.mem w out.1, out.2) else none
  | _ => none

/-- Conditions bind by `not`, `and` and `or`, in this order. -/
inductive Level
  | unit
  | conj
  | disj

/-- What follows a condition after a keyword that joins two. -/
def joined (keyword : Text) (join : Condition → Condition → Condition)
    (rest : List Token → Option (Condition × List Token)) (out : Condition × List Token) :
    Option (Condition × List Token) :=
  match out.2 with
  | .word w :: ts =>
    if w = keyword then (rest ts).map fun out' => (join out.1 out'.1, out'.2) else some out
  | _ => some out

def parse : ℕ → Level → List Token → Option (Condition × List Token)
  | 0, _, _ => none
  | n + 1, .disj, ts => (parse n .conj ts).bind (joined orWord .or (parse n .disj))
  | n + 1, .conj, ts => (parse n .unit ts).bind (joined andWord .and (parse n .conj))
  | n + 1, .unit, .symbol .opening :: ts =>
    (parse n .disj ts).bind fun out =>
      match out.2 with
      | .symbol .closing :: ts => some (out.1, ts)
      | _ => none
  | n + 1, .unit, .word w :: ts =>
    if w = notWord then (parse n .unit ts).map fun out => (.not out.1, out.2)
    else if isKeyword w then none
    else comparison w ts
  | _ + 1, .unit, _ => none

/-- The condition of a where clause; an empty clause has none. -/
def readTokens : List Token → Option (Option Condition)
  | [] => some none
  | .word w :: ts =>
    if w = whereWord then
      match parse (3 * ts.length + 3) .disj ts with
      | some (c, []) => some (some c)
      | _ => none
    else none
  | _ => none

/-- A where clause as it is read. -/
def readWhere (E : Escapes Char) (text : Text) : Option (Option Condition) :=
  (pieces E text).bind fun ps => (tokens ps).bind readTokens

/-! ### Tokens of joined texts -/

theorem lex_append {w : Text} (ps qs : List (Piece Char)) :
    lex w (ps ++ qs) = (lex w ps).bind fun out =>
      (lex out.2 qs).map fun out' => (out.1 ++ out'.1, out'.2) := by
  induction ps generalizing w with
  | nil =>
    simp only [List.nil_append, lex, Option.bind_some]
    exact Option.map_id'.symm
  | cons p ps ih =>
    simp only [List.cons_append, lex]
    cases lexPiece w p with
    | none => rfl
    | some out =>
      simp only [Option.bind_some, ih]
      cases lex out.2 ps with
      | none => rfl
      | some out₁ =>
        simp only [Option.bind_some, Option.map_some]
        cases lex out₁.2 qs with
        | none => rfl
        | some out₂ => simp

theorem lex_word {w u : Text} (h : ∀ c ∈ u, isWord c = true) :
    lex w (u.map .char) = some ([], w ++ u) := by
  induction u generalizing w with
  | nil => simp [lex]
  | cons c u ih =>
    have hc : lexPiece w (.char c) = some ([], w ++ [c]) := if_pos (h c (by simp))
    rw [List.map_cons, lex, hc, Option.bind_some, ih fun x hx => h x (by simp [hx])]
    simp

/-- A text outside literals that is cut into whole tokens. -/
def Lexes (E : Escapes Char) (text : Text) (ts : List Token) : Prop :=
  ∃ ps, scan E .outside text = (ps, .outside) ∧ lex [] ps = some (ts, [])

variable {E : Escapes Char} {text text' : Text} {ts ts' : List Token}

theorem Lexes.append (h : Lexes E text ts) (h' : Lexes E text' ts') :
    Lexes E (text ++ text') (ts ++ ts') := by
  obtain ⟨ps, hscan, hlex⟩ := h
  obtain ⟨ps', hscan', hlex'⟩ := h'
  refine ⟨ps ++ ps', ?_, ?_⟩
  · rw [scan_append, hscan, hscan']
  · rw [lex_append, hlex, Option.bind_some, hlex', Option.map_some]

theorem lexes_plain (h : Plain E text) (hlex : lex [] (text.map .char) = some (ts, [])) :
    Lexes E text ts :=
  ⟨_, scan_outside_plain h, hlex⟩

theorem lexes_value {v : Text} (h : Plain E v) :
    Lexes E (E.quote :: (v ++ [E.quote])) [.literal v] :=
  ⟨_, scan_plain_value h, rfl⟩

theorem Lexes.readWhere (h : Lexes E text ts) : readWhere E text = readTokens ts := by
  obtain ⟨ps, hscan, hlex⟩ := h
  have hpieces : pieces E text = some ps := by rw [pieces, hscan]
  rw [Quoting.readWhere, hpieces, Option.bind_some, tokens, hlex]
  simp [flush]

/-! ### Literals of a condition are literals of its text -/

theorem literal_not_mem_flush {w v : Text} : Token.literal v ∉ flush w := by
  unfold flush
  split_ifs <;> simp

theorem lexPiece_literal {w v : Text} {p : Piece Char} {out : List Token × Text}
    (h : lexPiece w p = some out) (hv : .literal v ∈ out.1) : p = .literal v := by
  cases p with
  | literal u =>
    cases h
    rcases List.mem_append.mp hv with hv | hv
    · exact absurd hv literal_not_mem_flush
    · simpa [eq_comm] using hv
  | char c =>
    rw [lexPiece] at h
    split_ifs at h
    · cases h
      simp at hv
    · cases h
      exact absurd hv literal_not_mem_flush
    · obtain ⟨s, -, rfl⟩ := Option.map_eq_some_iff.mp h
      rcases List.mem_append.mp hv with hv | hv
      · exact absurd hv literal_not_mem_flush
      · simp at hv

theorem lex_literal {w v : Text} {ps : List (Piece Char)} {out : List Token × Text}
    (h : lex w ps = some out) (hv : .literal v ∈ out.1) : .literal v ∈ ps := by
  induction ps generalizing w out with
  | nil =>
    cases h
    simp at hv
  | cons p ps ih =>
    obtain ⟨out₁, h1, h2⟩ := Option.bind_eq_some_iff.mp h
    obtain ⟨out₂, h3, rfl⟩ := Option.map_eq_some_iff.mp h2
    rcases List.mem_append.mp hv with hv | hv
    · rw [lexPiece_literal h1 hv]
      exact List.mem_cons_self
    · exact List.mem_cons_of_mem _ (ih h3 hv)

theorem tokens_literal {v : Text} {ps : List (Piece Char)} {ts : List Token}
    (h : tokens ps = some ts) (hv : .literal v ∈ ts) : .literal v ∈ ps := by
  obtain ⟨out, hout, rfl⟩ := Option.map_eq_some_iff.mp h
  rcases List.mem_append.mp hv with hv | hv
  · exact lex_literal hout hv
  · exact absurd hv literal_not_mem_flush

/-- A condition that was read from tokens has its literals from there, and leaves some of them. -/
def ReadFrom (ts : List Token) (out : Condition × List Token) : Prop :=
  (∀ v ∈ out.1.literals, .literal v ∈ ts) ∧ ∀ t ∈ out.2, t ∈ ts

theorem ReadFrom.mono {ts ts' : List Token} {out : Condition × List Token} (h : ReadFrom ts out)
    (hsub : ∀ t ∈ ts, t ∈ ts') : ReadFrom ts' out :=
  ⟨fun v hv => hsub _ (h.1 v hv), fun t ht => hsub t (h.2 t ht)⟩

theorem literalList_mem {ts : List Token} {out : List Text × List Token}
    (h : literalList ts = some out) : (∀ v ∈ out.1, .literal v ∈ ts) ∧ ∀ t ∈ out.2, t ∈ ts := by
  induction ts using literalList.induct generalizing out with
  | case1 v ts =>
    cases h
    simp +contextual
  | case2 v ts ih =>
    obtain ⟨out', h', rfl⟩ := Option.map_eq_some_iff.mp h
    obtain ⟨hlit, hrest⟩ := ih h'
    constructor
    · intro u hu
      rcases List.mem_cons.mp hu with rfl | hu
      · exact List.mem_cons_self
      · exact List.mem_cons_of_mem _ (List.mem_cons_of_mem _ (hlit u hu))
    · intro t ht
      exact List.mem_cons_of_mem _ (List.mem_cons_of_mem _ (hrest t ht))
  | case3 ts h1 h2 =>
    rw [literalList] at h
    · cases h
    · exact h1
    · exact h2

theorem comparison_reads {w : Text} {ts : List Token} {out : Condition × List Token}
    (h : comparison w ts = some out) : ReadFrom ts out := by
  unfold comparison at h
  split at h
  · cases h
    simp +contextual [ReadFrom, Condition.literals]
  · split_ifs at h
    obtain ⟨out', h', rfl⟩ := Option.map_eq_some_iff.mp h
    obtain ⟨hlit, hrest⟩ := literalList_mem h'
    exact ReadFrom.mono ⟨hlit, hrest⟩ (by simp +contextual)
  · cases h

theorem joined_reads {keyword : Text} {join : Condition → Condition → Condition}
    {rest : List Token → Option (Condition × List Token)} {ts : List Token}
    {out out' : Condition × List Token} (hout : ReadFrom ts out)
    (hjoin : ∀ c d, (join c d).literals = c.literals ++ d.literals)
    (hrest : ∀ ts' out', rest ts' = some out' → ReadFrom ts' out')
    (h : joined keyword join rest out = some out') : ReadFrom ts out' := by
  unfold joined at h
  split at h
  · rename_i w ts' hts
    split_ifs at h
    · obtain ⟨out₂, h2, rfl⟩ := Option.map_eq_some_iff.mp h
      have hsub : ∀ t ∈ ts', t ∈ ts := by
        intro t ht
        exact hout.2 t (hts ▸ List.mem_cons_of_mem _ ht)
      obtain ⟨hlit, hleft⟩ := (hrest ts' out₂ h2).mono hsub
      refine ⟨?_, hleft⟩
      intro v hv
      rw [hjoin] at hv
      rcases List.mem_append.mp hv with hv | hv
      · exact hout.1 v hv
      · exact hlit v hv
    · cases h
      exact hout
  · cases h
    exact hout

theorem parse_reads {n : ℕ} {l : Level} {ts : List Token} {out : Condition × List Token}
    (h : parse n l ts = some out) : ReadFrom ts out := by
  induction n generalizing l ts out with
  | zero => cases h
  | succ n ih =>
    cases l with
    | disj =>
      obtain ⟨out₁, h1, h2⟩ := Option.bind_eq_some_iff.mp h
      exact joined_reads (ih h1) (fun _ _ => rfl) (fun _ _ => ih) h2
    | conj =>
      obtain ⟨out₁, h1, h2⟩ := Option.bind_eq_some_iff.mp h
      exact joined_reads (ih h1) (fun _ _ => rfl) (fun _ _ => ih) h2
    | unit =>
      rcases ts with _ | ⟨t, ts⟩
      · cases h
      · have htail : ∀ u ∈ ts, u ∈ t :: ts := fun u hu => List.mem_cons_of_mem t hu
        cases t with
        | literal v => cases h
        | symbol s =>
          cases s with
          | opening =>
            obtain ⟨out₁, h1, h2⟩ := Option.bind_eq_some_iff.mp h
            obtain ⟨hlit, hrest⟩ := (ih h1).mono htail
            split at h2
            · rename_i ts' hts
              cases h2
              exact ⟨hlit, fun u hu => hrest u (hts ▸ List.mem_cons_of_mem _ hu)⟩
            · cases h2
          | equals => cases h
          | comma => cases h
          | closing => cases h
        | word w =>
          rw [parse] at h
          split_ifs at h
          · obtain ⟨out₁, h1, rfl⟩ := Option.map_eq_some_iff.mp h
            exact (ih h1).mono htail
          · exact (comparison_reads h).mono htail

/-- The literals of the condition that a where clause is read as are literals of its text. -/
theorem readWhere_literals {E : Escapes Char} {text : Text} {c : Condition}
    (h : readWhere E text = some (some c)) :
    ∃ ps, pieces E text = some ps ∧ ∀ v ∈ c.literals, .literal v ∈ ps := by
  obtain ⟨ps, hps, h⟩ := Option.bind_eq_some_iff.mp h
  obtain ⟨ts, hts, h⟩ := Option.bind_eq_some_iff.mp h
  refine ⟨ps, hps, ?_⟩
  unfold readTokens at h
  split at h
  · cases h
  · rename_i w ts'
    split_ifs at h
    · split at h
      · rename_i c' hparse
        cases h
        intro v hv
        exact tokens_literal hts (List.mem_cons_of_mem _ ((parse_reads hparse).1 v hv))
      · cases h
  · cases h

/-- The rows that a where clause selects. -/
def selects (row : Row) : Option Condition → Bool
  | none => true
  | some c => c.holds row

/-- Rows that no literal of the text tells apart are both selected, or neither is. -/
theorem selects_congr {o : Option Condition} {row row' : Row} (h : readWhere E text = some o)
    (hrow : ∀ ps, pieces E text = some ps → ∀ v, .literal v ∈ ps →
      ∀ column, row column = some v ↔ row' column = some v) :
    selects row o = selects row' o := by
  cases o with
  | none => rfl
  | some c =>
    obtain ⟨ps, hps, hlit⟩ := readWhere_literals h
    exact Condition.holds_congr fun v hv => hrow ps hps v (hlit v hv)

end YtScheduler.Quoting
