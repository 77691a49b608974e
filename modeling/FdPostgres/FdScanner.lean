import FdPostgres.AddTrigger

/-!
# The Scan of a Query String for a Dependency Registration

`exec_simple_query` looks at every query string before it is parsed. A string that starts
with `insert into FD_table values ('`, in any letter case, is taken for the registration of
a functional dependency, and four loops copy its fields into fixed buffers. This module is
those first lines of the function.

The loops test neither for the end of the string nor for the end of a buffer, so the model
is a computation that can fault: a read behind the terminator of the query string and a
write behind the end of a buffer are outcomes of their own (`Fault`), after which the
behaviour of the source is undefined. A character stands for one byte.

The reading position of the loops is the part of the string, terminator included, that
starts at the index `i` of the source; advancing `i` drops characters from it.

* `scanQuoted` is the loop that copies a field up to the next single quote.
* `scanColumns` is the loop that copies a list of double-quoted names up to the closing
  brace; the names are start offsets into one shared buffer.
* `fdScan` puts the four loops together behind the test for the prefix.
-/

namespace FdPostgres

/-- The single quote. -/
def squote : Char := Char.ofNat 39

/-- The double quote. -/
def dquote : Char := Char.ofNat 34

/-- The terminator of a string. -/
def nul : Char := Char.ofNat 0

/-- An access outside an object, after which the behaviour is undefined. -/
inductive Fault where
  /-- A read of the query string behind its terminator. -/
  | readQuery
  /-- A write behind the end of the buffer `temp`. -/
  | writeTemp
  /-- A write behind the end of the buffer for a field. -/
  | writeField
  /-- A write behind the end of the shared buffer for names. -/
  | writeNames
  /-- A write behind the end of the array of a column list. -/
  | writeColumns
  deriving Repr, DecidableEq

/-- The prefix of a registration. -/
def fd_query_prefix : List Char :=
  "insert into FD_table values (".toList ++ [squote]

/-- The test of the prefix: the query is copied into `temp`, cut off behind the length of
the prefix, and compared without regard to letter case. -/
def isFdQuery (query : List Char) : Bool :=
  (query.take fd_query_prefix.length).map Char.toLower = fd_query_prefix.map Char.toLower

/-- The loop over one quoted field: copy characters into a buffer of size `cap` until a
single quote, where the terminator is written. Returns the field and the reading position,
at the quote. -/
def scanQuoted (cap : Nat) : List Char → List Char → Except Fault (List Char × List Char)
  | [], _ => .error .readQuery
  | c :: rest, field =>
      if field.length < cap then
        if c = squote then .ok (field, c :: rest) else scanQuoted cap rest (field ++ [c])
      else .error .writeField

/-- The variables of the loops over the column lists: the characters written to the shared
buffer, whether a name is open, where it starts, and where the finished names start. -/
structure ColumnScan where
  buf : List Char
  flag : Bool
  start_idx : Nat
  names : List Nat
  deriving Repr, DecidableEq

/-- Write one character to the shared buffer of 10000 bytes. -/
def ColumnScan.put (st : ColumnScan) (c : Char) : Except Fault ColumnScan :=
  if st.buf.length < 10000 then .ok { st with buf := st.buf ++ [c] } else .error .writeNames

/-- The end of a name: write its terminator and enter its start into the array of 100
columns. -/
def ColumnScan.close (st : ColumnScan) : Except Fault ColumnScan := do
  let st ← st.put nul
  if st.names.length < 100 then
    .ok { st with names := st.names ++ [st.start_idx], flag := false }
  else .error .writeColumns

/-- The loop over a column list. A double quote opens a name or closes it; behind a closing
quote the next character is skipped, and a brace there ends the list. Returns the variables
and the reading position, at the brace. -/
def scanColumns : List Char → ColumnScan → Except Fault (List Char × ColumnScan)
  | [], _ => .error .readQuery
  | c :: rest, st =>
      if c = dquote then
        if st.flag then
          match st.close with
          | .error f => .error f
          | .ok st =>
              match rest with
              | [] => .error .readQuery
              | d :: rest' =>
                  if d = Char.ofNat 125 then .ok (d :: rest', st) else scanColumns rest' st
        else scanColumns rest { st with flag := true, start_idx := st.buf.length }
      else
        match st.put c with
        | .error f => .error f
        | .ok st => scanColumns rest st

/-- The string that starts at an offset of a buffer. -/
def cstringAt (buf : List Char) (start : Nat) : String :=
  String.ofList ((buf.drop start).takeWhile (· ≠ nul))

/-- **The scan of a query string**: the dependency to register, or `none` for any other
query. -/
def fdScan (query : List Char) : Except Fault (Option FdSpec) :=
  if 1000 ≤ query.length then .error .writeTemp
  else if isFdQuery query then do
    let text := query ++ [nul]
    let (fd_id, pos) ← scanQuoted 100 (text.drop fd_query_prefix.length) []
    let (relation, pos) ← scanQuoted 100 (pos.drop 3) []
    let (pos, left) ← scanColumns (pos.drop 4) ⟨[], false, 0, []⟩
    let (_, right) ← scanColumns (pos.drop 5) { left with names := [] }
    pure (some
      { fd_id := String.ofList fd_id
        relation := String.ofList relation
        lhs := left.names.map (cstringAt right.buf)
        rhs := right.names.map (cstringAt right.buf) })
  else pure none

end FdPostgres
