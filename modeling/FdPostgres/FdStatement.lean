import FdPostgres.FdScanner

/-!
# Statements that Register a Dependency

What `exec_simple_query` reads from a statement of the form

`insert into FD_table values ('id','rel','{"l1",...,"lm"}','{"r1",...,"rn"}')`

and what it does with other query strings before they are parsed.

* `FdStatement`: such a statement, within the sizes of the buffers.
* `Columns`, `Fields`: what the loops read to the end, in any layout.
* `fdScan_statement`: **the scan recovers the dependency**, and `add_trigger` builds its command
  from it.
* `prescan_safe`: **which query strings are scanned without a fault.**
-/

namespace FdPostgres

open List

/-! ### Statements -/

/-- Names in double quotes, with commas between them. -/
def quotedNames : List (List Char) → List Char
  | [] => []
  | [name] => dquote :: (name ++ [dquote])
  | name :: next :: names => dquote :: (name ++ dquote :: ',' :: quotedNames (next :: names))

/-- A field between single quotes that fits into its buffer. -/
structure QuotedField where
  chars : List Char
  unquoted : squote ∉ chars
  length_lt : chars.length < 100

/-- A list of column names that fits into its array. -/
structure ColumnNames where
  names : List (List Char)
  ne_nil : names ≠ []
  length_le : names.length ≤ 100
  unquoted : ∀ name ∈ names, dquote ∉ name ∧ nul ∉ name

/-- The text of a statement between its prefix and what stands behind it. -/
def fdFields (fd_id relation : QuotedField) (lhs rhs : ColumnNames) (rest : List Char) :
    List Char :=
  fd_id.chars ++ squote :: ',' :: squote :: (relation.chars ++ squote :: ',' :: squote ::
    Char.ofNat 123 :: (quotedNames lhs.names ++ Char.ofNat 125 :: squote :: ',' :: squote ::
      Char.ofNat 123 :: (quotedNames rhs.names ++ Char.ofNat 125 :: squote :: ')' :: rest)))

/-- A statement that registers a dependency, with its prefix in any letter case, anything behind it,
and a length that fits into `temp`. -/
structure FdStatement where
  head : List Char
  fd_id : QuotedField
  relation : QuotedField
  lhs : ColumnNames
  rhs : ColumnNames
  rest : List Char
  head_eq : head.map Char.toLower = fd_query_prefix.map Char.toLower
  length_lt : (head ++ fdFields fd_id relation lhs rhs rest).length < 1000

def FdStatement.text (s : FdStatement) : List Char :=
  s.head ++ fdFields s.fd_id s.relation s.lhs s.rhs s.rest

/-- The dependency that a statement registers. -/
def FdStatement.fd (s : FdStatement) : FdSpec where
  fd_id := String.ofList s.fd_id.chars
  relation := String.ofList s.relation.chars
  lhs := s.lhs.names.map String.ofList
  rhs := s.rhs.names.map String.ofList

/-! ### Fields and names -/

/-- A field is copied. -/
theorem scanQuoted_eq {cap : ℕ} {text : List Char} (h : squote ∉ text) (rest field : List Char)
    (hcap : field.length + text.length < cap) :
    scanQuoted cap (text ++ squote :: rest) field = .ok (field ++ text, squote :: rest) := by
  induction text generalizing field with
  | nil => simp_all [scanQuoted]
  | cons c text ih =>
    rw [mem_cons, not_or] at h
    rw [length_cons] at hcap
    rw [cons_append, scanQuoted, if_pos (by omega), if_neg (Ne.symm h.1), ih h.2 _ (by
      rw [length_append, length_singleton]
      omega), append_assoc, singleton_append]

/-- `Columns opened names text pos`: a list of names in double quotes leads from `text` to the brace
at `pos`, where `opened` is what was read of a name that is open at `text`. The character behind a
name is the brace for the last one only, and characters that are not double quotes may stand in
front of a name. -/
inductive Columns : Option (List Char) → List (List Char) → List Char → List Char → Prop
  | char {opened names c text pos} : c ≠ dquote →
      Columns (opened.map (· ++ [c])) names text pos → Columns opened names (c :: text) pos
  | start {names text pos} : Columns (some []) names text pos →
      Columns none names (dquote :: text) pos
  | next {name names d text pos} : d ≠ Char.ofNat 125 → Columns none names text pos →
      Columns (some name) (name :: names) (dquote :: d :: text) pos
  | last {name text} : Columns (some name) [name] (dquote :: Char.ofNat 125 :: text)
      (Char.ofNat 125 :: text)

variable {opened : Option (List Char)} {name : List Char} {names : List (List Char)}
  {text pos : List Char} {st st' : ColumnScan} {c : Char}

/-- The characters of a name are read. -/
theorem Columns.chars {chars : List Char} (h : dquote ∉ chars)
    (hcols : Columns (some (name ++ chars)) names text pos) :
    Columns (some name) names (chars ++ text) pos := by
  induction chars generalizing name with
  | nil => rwa [append_nil] at hcols
  | cons c chars ih =>
    rw [mem_cons, not_or] at h
    rw [← singleton_append, ← append_assoc] at hcols
    exact .char (Ne.symm h.1) (ih h.2 hcols)

/-- Names in double quotes with commas between them are such a list. -/
theorem columns_quotedNames (hne : names ≠ [])
    (h : ∀ name ∈ names, dquote ∉ name ∧ nul ∉ name) (text : List Char) :
    Columns none names (quotedNames names ++ Char.ofNat 125 :: text) (Char.ofNat 125 :: text) := by
  induction names with
  | nil => exact absurd rfl hne
  | cons name names ih =>
    rw [forall_mem_cons] at h
    cases names with
    | nil =>
      simp only [quotedNames, cons_append, append_assoc]
      exact .start (.chars h.1.1 .last)
    | cons next names =>
      simp only [quotedNames, cons_append, append_assoc]
      exact .start (.chars h.1.1 (.next (by decide) (ih (cons_ne_nil _ _) h.2)))

/-- What was read of a name that is open. -/
def ColumnScan.Reading (st : ColumnScan) : Option (List Char) → Prop
  | none => st.flag = false
  | some name => st.flag = true ∧ ∃ before, st.buf = before ++ name ∧ st.start_idx = before.length

theorem ColumnScan.Reading.put (h : st.Reading opened) (c : Char) :
    Reading { st with buf := st.buf ++ [c] } (opened.map (· ++ [c])) := by
  cases opened with
  | none => exact h
  | some name =>
    obtain ⟨hflag, before, hbuf, hstart⟩ := h
    exact ⟨hflag, before, by rw [hbuf, append_assoc], hstart⟩

theorem ColumnScan.put_eq_ok_iff :
    st.put c = .ok st' ↔ st.buf.length < 10000 ∧ st' = { st with buf := st.buf ++ [c] } := by
  rw [ColumnScan.put]
  split_ifs with h <;> simp [h, eq_comm]

theorem ColumnScan.close_eq_ok_iff :
    st.close = .ok st' ↔ st.buf.length < 10000 ∧ st.names.length < 100 ∧
      st' = ⟨st.buf ++ [nul], false, st.start_idx, st.names ++ [st.start_idx]⟩ := by
  simp only [ColumnScan.close, Except.bind_eq_ok_iff, ColumnScan.put_eq_ok_iff]
  constructor
  · rintro ⟨_, ⟨hroom, rfl⟩, h⟩
    split_ifs at h with hnames
    exact ⟨hroom, hnames, (Except.ok.inj h).symm⟩
  · rintro ⟨hroom, hnames, rfl⟩
    exact ⟨_, ⟨hroom, rfl⟩, if_pos hnames⟩

/-- The names were copied behind what `st` has, and are found at the starts that were entered,
whatever is written behind them. -/
def ColumnScan.Copied (st : ColumnScan) (names : List (List Char)) (st' : ColumnScan) : Prop :=
  st'.flag = false ∧ st.buf <+: st'.buf ∧ ∃ starts, st'.names = st.names ++ starts ∧
    ((∀ name ∈ names, nul ∉ name) → ∀ buf, st'.buf <+: buf →
      starts.map (cstringAt buf) = names.map String.ofList)

theorem ColumnScan.Copied.of_append
    (h : Copied { st with buf := st.buf ++ [c] } names st') : st.Copied names st' :=
  ⟨h.1, (prefix_append _ _).trans h.2.1, h.2.2⟩

theorem cstringAt_append (h : nul ∉ name) (before behind : List Char) :
    cstringAt (before ++ name ++ nul :: behind) before.length = String.ofList name := by
  rw [cstringAt, append_assoc, drop_left, takeWhile_append_of_pos (fun c hc => by
    simpa using fun hnul : c = nul => h (hnul ▸ hc))]
  simp

theorem ColumnScan.Copied.close (hst : st.Reading (some name))
    (h : Copied ⟨st.buf ++ [nul], false, st.start_idx, st.names ++ [st.start_idx]⟩ names st') :
    st.Copied (name :: names) st' := by
  obtain ⟨_, before, hbuf, hstart⟩ := hst
  obtain ⟨hflag, hpre, starts, hnames, hread⟩ := h
  refine ⟨hflag, (prefix_append _ _).trans hpre, st.start_idx :: starts, by
    rw [hnames, append_assoc, singleton_append], fun hnul buf hle => ?_⟩
  rw [forall_mem_cons] at hnul
  obtain ⟨behind, rfl⟩ := hpre.trans hle
  rw [map_cons, map_cons, hread hnul.2 _ hle, hstart, hbuf, append_assoc _ [nul], singleton_append,
    cstringAt_append hnul.1]

/-- **A column list that fits into the buffers is copied.** -/
theorem Columns.scanColumns (h : Columns opened names text pos) (st : ColumnScan)
    (hst : st.Reading opened) (hroom : st.buf.length + text.length ≤ 10000)
    (hnames : st.names.length + names.length ≤ 100) :
    ∃ st', scanColumns text st = .ok (pos, st') ∧ st.Copied names st' ∧
      st'.buf.length + pos.length ≤ st.buf.length + text.length := by
  induction h generalizing st with
  | @char opened names c text pos hc _ ih =>
    rw [length_cons] at hroom
    rw [FdPostgres.scanColumns, if_neg hc, ColumnScan.put_eq_ok_iff.mpr ⟨by omega, rfl⟩]
    obtain ⟨st', hscan, hread, hlen⟩ := ih _ (hst.put c)
      (by simp only [length_append, length_singleton]; omega) hnames
    simp only [length_append, length_cons, length_nil] at hlen ⊢
    exact ⟨st', hscan, hread.of_append, by omega⟩
  | @start names text pos _ ih =>
    rw [length_cons] at hroom
    rw [FdPostgres.scanColumns, hst]
    obtain ⟨st', hscan, hread, hlen⟩ := ih { st with flag := true, start_idx := st.buf.length }
      ⟨rfl, st.buf, (append_nil _).symm, rfl⟩ (by dsimp only; omega) hnames
    rw [length_cons]
    exact ⟨st', hscan, hread, by dsimp only at hlen; omega⟩
  | @next name names d text pos hd _ ih =>
    simp only [length_cons] at hroom hnames
    rw [FdPostgres.scanColumns, if_pos hst.1,
      ColumnScan.close_eq_ok_iff.mpr ⟨by omega, by omega, rfl⟩]
    simp only [if_neg hd]
    obtain ⟨st', hscan, hread, hlen⟩ := ih
      ⟨st.buf ++ [nul], false, st.start_idx, st.names ++ [st.start_idx]⟩ rfl
      (by simp only [length_append, length_singleton]; omega)
      (by simp only [length_append, length_singleton]; omega)
    simp only [length_append, length_cons, length_nil] at hlen ⊢
    exact ⟨st', hscan, hread.close hst, by omega⟩
  | @last name text =>
    simp only [length_cons] at hroom hnames
    rw [FdPostgres.scanColumns, if_pos hst.1,
      ColumnScan.close_eq_ok_iff.mpr ⟨by omega, by omega, rfl⟩]
    refine ⟨_, rfl, .close hst ⟨rfl, prefix_rfl, [], (append_nil _).symm, fun _ _ _ => rfl⟩, ?_⟩
    simp only [length_append, length_cons, length_nil]
    omega

/-! ### The scan of the fields -/

/-- The fields of a registration are complete and within the sizes of their buffers. -/
def Fields (text fd_id relation : List Char) (lhs rhs : List (List Char)) : Prop :=
  ∃ pos pos₁ pos₂ pos₃,
    (text = fd_id ++ squote :: pos ∧ squote ∉ fd_id ∧ fd_id.length < 100) ∧
    (pos.drop 2 = relation ++ squote :: pos₁ ∧ squote ∉ relation ∧ relation.length < 100) ∧
    (Columns none lhs (pos₁.drop 3) pos₂ ∧ lhs.length ≤ 100) ∧
    Columns none rhs (pos₂.drop 5) pos₃ ∧ rhs.length ≤ 100

/-- **The four loops recover the fields.** -/
theorem Fields.fdScan {query fd_id relation : List Char} {lhs rhs : List (List Char)}
    (h : Fields ((query ++ [nul]).drop fd_query_prefix.length) fd_id relation lhs rhs)
    (hlong : query.length < 1000) (hfd : isFdQuery query = true) :
    ∃ fd, fdScan query = .ok (some fd) ∧ fd.fd_id = String.ofList fd_id ∧
      fd.relation = String.ofList relation ∧
      ((∀ name ∈ lhs, nul ∉ name) → fd.lhs = lhs.map String.ofList) ∧
      ((∀ name ∈ rhs, nul ∉ name) → fd.rhs = rhs.map String.ofList) := by
  obtain ⟨pos, pos₁, pos₂, pos₃, ⟨htext, hid⟩, ⟨hpos, hrel⟩, ⟨hlhs, hn⟩, hrhs, hm⟩ := h
  have hlen := congrArg length htext
  have hlen₁ := congrArg length hpos
  simp only [length_append, length_drop, length_cons, length_nil] at hlen hlen₁
  obtain ⟨left, hleft, ⟨hflag, _, starts, hstarts, hread⟩, hroom⟩ :=
    hlhs.scanColumns ⟨[], false, 0, []⟩ rfl
      (by simp only [length_drop, length_nil]; omega) (by simpa using hn)
  simp only [length_drop, length_nil] at hroom
  obtain ⟨right, hright, ⟨_, hpre, starts', hstarts', hread'⟩, _⟩ :=
    hrhs.scanColumns { left with names := [] } hflag
      (by simp only [length_drop]; omega) (by simpa using hm)
  rw [FdPostgres.fdScan, if_neg (not_le.mpr hlong), if_pos hfd]
  simp only [htext, scanQuoted_eq hid.1 pos [] (by simpa using hid.2), bind, Except.bind,
    drop_succ_cons, hpos, scanQuoted_eq hrel.1 pos₁ [] (by simpa using hrel.2), hleft, hright,
    nil_append]
  refine ⟨_, rfl, rfl, rfl, fun hnul => ?_, fun hnul => ?_⟩
  · exact (congrArg _ hstarts).trans (hread hnul _ hpre)
  · exact (congrArg _ hstarts').trans (hread' hnul _ prefix_rfl)

/-! ### The scan of a statement -/

variable (s : FdStatement)

theorem FdStatement.length_head : s.head.length = fd_query_prefix.length := by
  simpa using congrArg length s.head_eq

/-- A statement starts with the prefix. -/
theorem FdStatement.isFdQuery_text : isFdQuery s.text = true := by
  rw [isFdQuery, FdStatement.text, ← s.length_head, take_left, s.head_eq]
  exact decide_eq_true rfl

/-- **The scan recovers the dependency.** -/
theorem FdStatement.fdScan_text : fdScan s.text = .ok (some s.fd) := by
  have hdrop : (s.text ++ [nul]).drop fd_query_prefix.length =
      fdFields s.fd_id s.relation s.lhs s.rhs (s.rest ++ [nul]) := by
    rw [FdStatement.text, ← s.length_head]
    simp [fdFields]
  have hfields : Fields ((s.text ++ [nul]).drop fd_query_prefix.length) s.fd_id.chars
      s.relation.chars s.lhs.names s.rhs.names := by
    rw [hdrop]
    exact ⟨_, _, _, _, ⟨rfl, s.fd_id.unquoted, s.fd_id.length_lt⟩,
      ⟨rfl, s.relation.unquoted, s.relation.length_lt⟩,
      ⟨columns_quotedNames s.lhs.ne_nil s.lhs.unquoted _, s.lhs.length_le⟩,
      columns_quotedNames s.rhs.ne_nil s.rhs.unquoted _, s.rhs.length_le⟩
  obtain ⟨fd, hscan, hid, hrel, hlhs, hrhs⟩ := hfields.fdScan s.length_lt s.isFdQuery_text
  have hfd : fd = s.fd := by
    cases fd
    simp only [FdStatement.fd, FdSpec.mk.injEq]
    exact ⟨hid, hrel, hlhs fun name hname => (s.lhs.unquoted name hname).2,
      hrhs fun name hname => (s.rhs.unquoted name hname).2⟩
  rw [hscan, hfd]

/-! ### The command -/

/-- What an `append` loop writes are the pieces with the separator between them. -/
theorem join_appendLoop (sep : String) (f : String → Text) (cols : List String) :
    String.join (appendLoop sep f cols) =
      sep.intercalate (cols.map fun col => String.join (f col)) := by
  induction cols with
  | nil => rfl
  | cons col cols ih =>
    cases cols with
    | nil => simp [appendLoop]
    | cons next cols =>
      rw [appendLoop, String.join_append, String.join_cons, ih, map_cons, map_cons, map_cons,
        String.intercalate_cons_cons, String.append_assoc]

/-- The format string of `add_trigger` with its arguments in their places. -/
def commandTemplate (fd_id R relation cond : String) : String :=
  String.join ["CREATE FUNCTION ", fd_id, "_check", "() RETURNS TRIGGER language plpgsql \t\t\t",
    "as $$\t\t\tdeclare \t\t\t\tcnt integer;\t\t\tbegin\t\t\t\t", "SELECT COUNT(DISTINCT ", R,
    ")  \t\t\t\tINTO cnt\t\t\t\tFROM ", relation, " \t\t\t\tWHERE ", cond, " ;\t\t\t\t",
    "if cnt > ", "1", " THEN \t\t\t\t", "RAISE EXCEPTION '",
    "Functional dependency fd1 failed", "'; \t\t\t\t", "END IF;\t\t\t", "end;\t\t\t$$ ;\t\t\t",
    "CREATE TRIGGER ", "trigg_", fd_id, " BEFORE INSERT OR UPDATE ON ", relation,
    " \t\t\tFOR EACH ROW \t\t\tEXECUTE FUNCTION ", fd_id, "_check", "();"]

/-- The lists in the command are the joined columns and comparisons. -/
theorem add_trigger_command_text (fd : FdSpec) :
    String.join (add_trigger_command fd) = commandTemplate fd.fd_id (",".intercalate fd.rhs)
      fd.relation (" AND ".intercalate (fd.lhs.map fun col => col ++ "=NEW." ++ col)) := by
  have hcol : ∀ col, String.join [col] = col := fun col => by simp
  simp only [add_trigger_command, commandTemplate, rhsText, condText, String.join_append,
    join_appendLoop, hcol, map_id', String.join_cons, String.append_assoc]

/-- **The scan of a registration recovers exactly its fields**, and the command is the template with
the right-hand columns and the comparisons of the left-hand ones. -/
theorem fdScan_statement (s : FdStatement) :
    fdScan s.text = .ok (some s.fd) ∧
      String.join (add_trigger_command s.fd) =
        commandTemplate s.fd.fd_id (",".intercalate s.fd.rhs) s.fd.relation
          (" AND ".intercalate (s.fd.lhs.map fun col => col ++ "=NEW." ++ col)) :=
  ⟨s.fdScan_text, add_trigger_command_text s.fd⟩

/-- `insert into FD_table values ('f','r','{"a","bc"}','{"d","e"}')`, with a semicolon. -/
def abcDetermineDe : FdStatement where
  head := fd_query_prefix
  fd_id := ⟨['f'], by decide, by decide⟩
  relation := ⟨['r'], by decide, by decide⟩
  lhs := ⟨[['a'], ['b', 'c']], by decide, by decide, by decide⟩
  rhs := ⟨[['d'], ['e']], by decide, by decide, by decide⟩
  rest := [';']
  head_eq := rfl
  length_lt := by decide

/-- The fields of that statement, and the trigger that compares two columns. -/
theorem fdScan_statement_abcDetermineDe :
    fdScan abcDetermineDe.text = .ok (some ⟨"f", "r", ["a", "bc"], ["d", "e"]⟩) ∧
      String.join (add_trigger_command abcDetermineDe.fd) =
        commandTemplate "f" "d,e" "r" "a=NEW.a AND bc=NEW.bc" :=
  fdScan_statement abcDetermineDe

/-! ### Other query strings -/

/-- A field that was copied stands before a quote. -/
theorem scanQuoted_sound {cap : ℕ} {text field : List Char} {r : List Char × List Char}
    (h : scanQuoted cap text field = .ok r) : ∃ chars pos, text = chars ++ squote :: pos ∧
      squote ∉ chars ∧ field.length + chars.length < cap ∧ r = (field ++ chars, squote :: pos) := by
  induction text generalizing field with
  | nil => cases h
  | cons c text ih =>
    rw [scanQuoted] at h
    split_ifs at h with hlen hc
    · cases h
      exact ⟨[], text, by rw [hc, nil_append], not_mem_nil, hlen, by rw [append_nil, hc]⟩
    · obtain ⟨chars, pos, rfl, hchars, hcap, rfl⟩ := ih h
      refine ⟨c :: chars, pos, rfl, ?_, ?_, by rw [append_assoc, singleton_append]⟩
      · rw [mem_cons, not_or]
        exact ⟨Ne.symm hc, hchars⟩
      · rw [length_append, length_singleton] at hcap
        rw [length_cons]
        omega

theorem ColumnScan.Reading.exists_of_flag (h : st.Reading opened) (hflag : st.flag = true) :
    ∃ name, opened = some name := by
  cases opened with
  | none => exact absurd (hflag.symm.trans h) (by decide)
  | some name => exact ⟨name, rfl⟩

/-- A column list that was copied is one, and the array had room for its names. -/
theorem scanColumns_sound {r : List Char × ColumnScan} (h : scanColumns text st = .ok r)
    (opened : Option (List Char)) (hst : st.Reading opened) :
    ∃ names, Columns opened names text r.1 ∧ st.names.length + names.length ≤ 100 ∧
      r.2.flag = false := by
  fun_induction scanColumns text st generalizing opened with
  | case1 | case2 | case3 | case7 => cases h
  | case4 st hflag st₁ hclose rest =>
    obtain ⟨_, hnames, rfl⟩ := ColumnScan.close_eq_ok_iff.mp hclose
    obtain ⟨name, rfl⟩ := hst.exists_of_flag hflag
    cases h
    exact ⟨[name], .last, hnames, rfl⟩
  | case5 st hflag st₁ hclose d rest hd ih =>
    obtain ⟨_, _, rfl⟩ := ColumnScan.close_eq_ok_iff.mp hclose
    obtain ⟨name, rfl⟩ := hst.exists_of_flag hflag
    obtain ⟨names, hcols, hn, hfalse⟩ := ih h none rfl
    simp only [length_append, length_singleton] at hn
    exact ⟨name :: names, hcols.next hd, by rw [length_cons]; omega, hfalse⟩
  | case6 rest st hflag ih =>
    cases opened with
    | none =>
      obtain ⟨names, hcols, hn⟩ := ih h (some []) ⟨rfl, st.buf, (append_nil _).symm, rfl⟩
      exact ⟨names, hcols.start, hn⟩
    | some name => exact absurd hst.1 hflag
  | case8 c rest st hc st₁ hput ih =>
    obtain ⟨_, rfl⟩ := ColumnScan.put_eq_ok_iff.mp hput
    obtain ⟨names, hcols, hn⟩ := ih h _ (hst.put c)
    exact ⟨names, hcols.char hc, hn⟩

/-- **Which query strings are scanned without a fault**: those shorter than 1000 characters that do
not start like a registration, or whose fields are complete and fit into the buffers. -/
theorem prescan_safe (query : List Char) :
    (∃ r, fdScan query = .ok r) ↔ query.length < 1000 ∧ (isFdQuery query = true →
      ∃ fd_id relation lhs rhs,
        Fields ((query ++ [nul]).drop fd_query_prefix.length) fd_id relation lhs rhs) := by
  by_cases hlong : 1000 ≤ query.length
  · rw [fdScan, if_pos hlong]
    simpa using fun h => absurd h (not_lt.mpr hlong)
  · by_cases hfd : isFdQuery query = true
    · refine ⟨?_, fun ⟨hlong, h⟩ => ?_⟩
      · rw [fdScan, if_neg hlong, if_pos hfd]
        simp only [Except.bind_eq_ok_iff]
        rintro ⟨_, _, hid, _, hrel, ⟨pos₂, left⟩, hleft, ⟨pos₃, right⟩, hright, _⟩
        obtain ⟨fd_id, pos, htext, hnoq, hcap, rfl⟩ := scanQuoted_sound hid
        obtain ⟨relation, pos₁, hpos, hnoq', hcap', rfl⟩ := scanQuoted_sound hrel
        obtain ⟨lhs, hleft, hn, hflag⟩ := scanColumns_sound hleft none rfl
        obtain ⟨rhs, hright, hm, _⟩ := scanColumns_sound hright none hflag
        simp only [length_nil, zero_add] at *
        exact ⟨not_le.mp hlong, fun _ => ⟨fd_id, relation, lhs, rhs, pos, pos₁, pos₂, pos₃,
          ⟨htext, hnoq, hcap⟩, ⟨hpos, hnoq', hcap'⟩, ⟨hleft, hn⟩, hright, hm⟩⟩
      · obtain ⟨fd_id, relation, lhs, rhs, hfields⟩ := h hfd
        obtain ⟨fd, hscan, _⟩ := hfields.fdScan hlong hfd
        exact ⟨_, hscan⟩
    · rw [fdScan, if_neg hlong]
      simpa [hfd, pure, Except.pure] using hlong

/-- Too long a string is written behind the end of `temp`, and a registration that ends in its first
field is read behind its terminator. -/
theorem prescan_unsafe :
    fdScan (replicate 1000 'x') = .error .writeTemp ∧
      fdScan fd_query_prefix = .error .readQuery :=
  ⟨if_pos (le_of_eq length_replicate.symm), by decide⟩

end FdPostgres
