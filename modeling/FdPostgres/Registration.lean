import FdPostgres.Enforcement
import FdPostgres.FdScanner

/-!
# Registering a Functional Dependency

A registration is one simple query that must have two effects: the row enters `FD_table`,
and the check function and trigger of the dependency are created. `exec_simple_query`
makes the second happen first: for a query that scans as a registration it calls
`add_trigger`, which runs the generated command in a transaction of its own through
`SPI_execute`, and only then is the query parsed and executed like any other.

The model has three parts.

* The catalog and the session (`Catalog`, `Backend`): what an error rolls back to, and
  whether a transaction block is open.
* `SPI_execute` with its read-only flag: every command that is not truly read-only is
  refused in read-only mode, and `CommandIsReadOnly` counts no utility command as
  read-only.
* `exec_simple_query`: the scan, `add_trigger`, and the main path.

The parser and the executor are parameters (`Server`). Of the parser only one fact of the
grammar is used, `Server.Grammatical`: a text that starts with `CREATE FUNCTION ` and
parses at all has a `CREATE FUNCTION` command as its first statement.

## Main results

* `SPI_execute_readOnly_createFunction`: in read-only mode, a command list that starts with
  `CREATE FUNCTION` raises an error before anything is executed.
* `add_trigger_error`: hence `add_trigger` never succeeds.
* `exec_simple_query_registration`: every registration ends in an error that takes the
  catalog back to the start of the transaction.
* `fd_registration_never_completes`: **no registration ever completes**, and none ends with
  exactly one of its two effects.
-/

namespace FdPostgres

/-! ### The catalog and the session -/

/-- The part of the catalog that registrations read and change. -/
structure Catalog where
  /-- The relations, with their columns. -/
  relations : List (String × List String)
  /-- The names of the functions. -/
  functions : List String
  /-- The triggers, as relation and name. -/
  triggers : List (String × String)
  /-- The rows of `FD_table`, or `none` when the table does not exist. -/
  fdTable : Option (List FdSpec)
  deriving Repr, DecidableEq

variable (fd : FdSpec)

/-- The name of the check function of a dependency. -/
def checkName : String := fd.fd_id ++ "_check"

/-- The name of the trigger of a dependency. -/
def triggerName : String := "trigg_" ++ fd.fd_id

/-- The row of a dependency is in `FD_table`. -/
def Catalog.HasRow (cat : Catalog) (fd : FdSpec) : Prop :=
  ∃ rows, cat.fdTable = some rows ∧ fd ∈ rows

/-- The check function and the trigger of a dependency are installed. -/
def Catalog.HasCheck (cat : Catalog) (fd : FdSpec) : Prop :=
  checkName fd ∈ cat.functions ∧ (fd.relation, triggerName fd) ∈ cat.triggers

/-- The relation and the columns that a dependency names exist. -/
def Catalog.HasColumns (cat : Catalog) (fd : FdSpec) : Prop :=
  ∃ cols, (fd.relation, cols) ∈ cat.relations ∧ ∀ col ∈ fd.lhs ++ fd.rhs, col ∈ cols

/-- The transaction block state of a session between two commands. -/
inductive TBlock where
  | default
  | inProgress
  | subInProgress
  | abort
  | subAbort
  deriving Repr, DecidableEq

/-- A session: the catalog it sees, and the catalog that an error takes it back to, which
is the one at the start of the current transaction or subtransaction. -/
structure Backend where
  base : Catalog
  current : Catalog
  block : TBlock
  deriving Repr, DecidableEq

variable (b : Backend)

/-- `StartTransactionCommand`: outside a block, a transaction starts here. -/
def StartTransactionCommand : Backend :=
  match b.block with
  | .default => { b with base := b.current }
  | _ => b

/-- `CommitTransactionCommand`: outside a block, the transaction commits here. -/
def CommitTransactionCommand : Backend :=
  match b.block with
  | .default => { b with base := b.current }
  | _ => b

/-- `AbortCurrentTransaction`: undo the current transaction, and mark an open block as
failed. -/
def AbortCurrentTransaction : Backend :=
  match b.block with
  | .default => { b with current := b.base }
  | .inProgress => { b with current := b.base, block := .abort }
  | .subInProgress => { b with current := b.base, block := .subAbort }
  | .abort => b
  | .subAbort => b

/-! ### Commands -/

/-- A utility command, as far as `_SPI_execute_plan` tells them apart. -/
inductive UtilityStmt where
  | createFunction (name : String)
  | createTrigger (name relation : String)
  /-- `COPY` from or to the client. -/
  | copyClient
  | transaction (exits : Bool)
  | other (tag : String)
  deriving Repr, DecidableEq

/-- A planned statement, with what decides whether it only reads. -/
inductive PlannedStmt where
  | select (rowMarks hasModifyingCTE : Bool) (query : String)
  | modify (tag query : String)
  | utility (stmt : UtilityStmt)
  deriving Repr, DecidableEq

/-- `CommandIsReadOnly`: only a plain `SELECT` is; all utility commands count as
read/write. -/
def CommandIsReadOnly : PlannedStmt → Bool
  | .select rowMarks hasModifyingCTE _ => !rowMarks && !hasModifyingCTE
  | .modify _ _ => false
  | .utility _ => false

/-- `CreateCommandName`: the name of a command in messages. -/
def CreateCommandName : PlannedStmt → String
  | .select _ _ _ => "SELECT"
  | .modify tag _ => tag
  | .utility (.createFunction _) => "CREATE FUNCTION"
  | .utility (.createTrigger _ _) => "CREATE TRIGGER"
  | .utility .copyClient => "COPY"
  | .utility (.transaction _) => "TRANSACTION"
  | .utility (.other tag) => tag

/-- An error as it leaves a session: its message and the state it was raised in. -/
abbrev Raised := String × Backend

/-- The code that is not embedded: parsing and planning a text, and running a planned
statement in a session. Both can raise an error. -/
structure Server where
  parse : String → Except String (List PlannedStmt)
  execute : PlannedStmt → Backend → Except Raised Backend

/-- The fact of the grammar that the results rest on: a text that starts with
`CREATE FUNCTION ` and parses is a list whose first statement is a `CREATE FUNCTION`. -/
def Server.Grammatical (srv : Server) : Prop :=
  ∀ rest stmts, srv.parse ("CREATE FUNCTION " ++ rest) = .ok stmts →
    ∃ name more, stmts = .utility (.createFunction name) :: more

/-! ### The server programming interface -/

/-- The result codes of `SPI_execute` that the callers here distinguish. -/
inductive SpiResult where
  | okUtility
  | okQuery
  | okRewritten
  | errorCopy
  | errorTransaction
  deriving Repr, DecidableEq

/-- Parse a text in a session; a syntax error is raised in the state the session is in. -/
def Server.parseIn (srv : Server) (src : String) (b : Backend) :
    Except Raised (List PlannedStmt) :=
  match srv.parse src with
  | .ok stmts => .ok stmts
  | .error e => .error (e, b)

/-- The loop of `_SPI_execute_plan` over the statements, with the result code so far. -/
def spiExecuteLoop (srv : Server) (read_only : Bool) :
    List PlannedStmt → SpiResult → Backend → Except Raised (SpiResult × Backend)
  | [], res, b => .ok (res, b)
  | stmt :: rest, _, b =>
      match stmt with
      | .utility .copyClient => .ok (.errorCopy, b)
      | .utility (.transaction _) => .ok (.errorTransaction, b)
      | stmt =>
          if read_only && !CommandIsReadOnly stmt then
            .error (CreateCommandName stmt ++ " is not allowed in a non-volatile function", b)
          else do
            let b' ← srv.execute stmt b
            let res' := match stmt with
              | .utility _ => .okUtility
              | _ => .okQuery
            spiExecuteLoop srv read_only rest res' b'

/-- `SPI_execute`: parse the text, then run its statements in order. -/
def SPI_execute (srv : Server) (src : String) (read_only : Bool) (b : Backend) :
    Except Raised (SpiResult × Backend) := do
  let stmts ← srv.parseIn src b
  spiExecuteLoop srv read_only stmts .okRewritten b

variable {srv : Server} {query : List Char}

/-- **A read-only call refuses `CREATE FUNCTION`**: the error is raised before anything is
executed. -/
theorem SPI_execute_readOnly_createFunction (hg : srv.Grammatical) (rest : String) (b : Backend) :
    ∃ e, SPI_execute srv ("CREATE FUNCTION " ++ rest) true b = .error (e, b) := by
  unfold SPI_execute Server.parseIn
  rcases hp : srv.parse ("CREATE FUNCTION " ++ rest) with e | stmts
  · exact ⟨e, rfl⟩
  · obtain ⟨name, more, rfl⟩ := hg rest stmts hp
    exact ⟨_, rfl⟩

/-! ### `add_trigger` and `exec_simple_query` -/

/-- `add_trigger`: in a transaction of its own, run the generated command through
`SPI_execute` with its read-only flag set, and insist on the result code of a utility
command. -/
def add_trigger (srv : Server) (fd : FdSpec) (b : Backend) : Except Raised Backend := do
  let (ret, b) ← SPI_execute srv (String.join (add_trigger_command fd)) true
    (StartTransactionCommand b)
  if ret = .okUtility then pure (CommitTransactionCommand b)
  else .error ("ALTER command failed", b)

/-- The loop of the main path over the statements of a query. In a failed block every
statement but one that ends it is refused; the last statement closes the transaction. -/
def mainLoop (srv : Server) : List PlannedStmt → Backend → Except Raised Backend
  | [], b => .ok (CommitTransactionCommand b)
  | stmt :: rest, b =>
      if (b.block = .abort ∨ b.block = .subAbort) ∧ stmt ≠ .utility (.transaction true) then
        .error ("current transaction is aborted, " ++
          "commands ignored until end of transaction block", b)
      else do
        let b' ← srv.execute stmt b
        mainLoop srv rest b'

/-- The main path: start a transaction, parse the query, and run its statements. -/
def mainPath (srv : Server) (query : String) (b : Backend) : Except Raised Backend := do
  let stmts ← srv.parseIn query (StartTransactionCommand b)
  mainLoop srv stmts (StartTransactionCommand b)

/-- How the processing of a query ends: with undefined behaviour, or in a session state
and with the message of the error that was raised, if any. -/
inductive QueryEnd where
  | fault (f : Fault)
  | ended (b : Backend) (err : Option String)
  deriving Repr, DecidableEq

/-- **`exec_simple_query`**: scan the query; for a registration, run `add_trigger` first;
then take the main path. A raised error aborts the transaction it was raised in. -/
def exec_simple_query (srv : Server) (b : Backend) (query : List Char) : QueryEnd :=
  match fdScan query with
  | .error f => .fault f
  | .ok scanned =>
      let result := do
        let b ← match scanned with
          | some fd => add_trigger srv fd b
          | none => pure b
        mainPath srv (String.ofList query) b
      match result with
      | .ok b => .ended b none
      | .error (e, b) => .ended (AbortCurrentTransaction b) (some e)

/-- The generated command starts with `CREATE FUNCTION `. -/
theorem join_add_trigger_command :
    ∃ rest, String.join (add_trigger_command fd) = "CREATE FUNCTION " ++ rest := by
  refine ⟨String.join (add_trigger_command fd).tail, ?_⟩
  have hcons : add_trigger_command fd = "CREATE FUNCTION " :: (add_trigger_command fd).tail := rfl
  rw [hcons, String.join_cons, List.tail_cons]

/-- **`add_trigger` never succeeds**: its command starts with `CREATE FUNCTION` and runs in
read-only mode. -/
theorem add_trigger_error (hg : srv.Grammatical) (fd : FdSpec) (b : Backend) :
    ∃ e, add_trigger srv fd b = .error (e, StartTransactionCommand b) := by
  obtain ⟨rest, hrest⟩ := join_add_trigger_command fd
  obtain ⟨e, he⟩ := SPI_execute_readOnly_createFunction hg rest (StartTransactionCommand b)
  refine ⟨e, ?_⟩
  rw [add_trigger, hrest, he]
  rfl

/-- A query with the prefix is scanned as a registration, unless the scan faults. -/
theorem fdScan_of_isFdQuery (hq : isFdQuery query = true) :
    (∃ f, fdScan query = .error f) ∨ ∃ fd, fdScan query = .ok (some fd) := by
  rcases hs : fdScan query with f | scanned
  · exact .inl ⟨f, rfl⟩
  · cases scanned with
    | some fd => exact .inr ⟨fd, rfl⟩
    | none =>
      unfold fdScan at hs
      split at hs
      · cases hs
      · simp only [Except.bind_eq_ok_iff] at hs
        obtain ⟨_, -, _, -, _, -, _, -, h⟩ := hs
        cases h

/-- **A registration is rolled back**: its processing faults, or it ends in an error and in
the state that aborting the transaction gives. -/
theorem exec_simple_query_registration (hg : srv.Grammatical) (b : Backend)
    (hq : isFdQuery query = true) : (∃ f, exec_simple_query srv b query = .fault f) ∨
    ∃ e, exec_simple_query srv b query =
      .ended (AbortCurrentTransaction (StartTransactionCommand b)) (some e) := by
  rcases fdScan_of_isFdQuery hq with ⟨f, hf⟩ | ⟨fd, hfd⟩
  · exact .inl ⟨f, by rw [exec_simple_query, hf]⟩
  · obtain ⟨e, he⟩ := add_trigger_error hg fd b
    refine .inr ⟨e, ?_⟩
    rw [exec_simple_query, hfd]
    simp only [he]
    rfl

/-! ### What a registration achieves -/

/-- A session that holds a catalog: the one it sees, or the one an error takes it back to. -/
def Backend.Holds (cat : Catalog) : Prop :=
  cat = b.base ∨ cat = b.current

/-- Rolling back leads to a catalog that the session held before. -/
theorem holds_of_rollback :
    b.Holds (AbortCurrentTransaction (StartTransactionCommand b)).current := by
  obtain ⟨base, current, block⟩ := b
  cases block with
  | default => exact .inr rfl
  | inProgress => exact .inl rfl
  | subInProgress => exact .inl rfl
  | abort => exact .inr rfl
  | subAbort => exact .inr rfl

/-- An array literal of column names: each name in double quotes, separated by commas,
between braces and single quotes. -/
def arrayLiteral (cols : List String) : List Char :=
  squote :: Char.ofNat 123 :: dquote ::
    ((String.intercalate "\",\"" cols).toList ++ [dquote, Char.ofNat 125, squote])

/-- The text of the statement that registers a dependency. -/
def fdStatement : List Char :=
  fd_query_prefix ++ (fd.fd_id.toList ++ "','".toList ++ fd.relation.toList ++ "',".toList ++
      arrayLiteral fd.lhs ++ ",".toList ++ arrayLiteral fd.rhs ++ ")".toList)

/-- The statement text is recognised as a registration. -/
theorem isFdQuery_fdStatement : isFdQuery (fdStatement fd) = true := by
  rw [isFdQuery, fdStatement, List.take_left]
  exact decide_eq_true rfl

/-- The session is ready for a registration: the relation with its columns and `FD_table`
exist, and neither the function nor the trigger does. -/
structure Backend.ReadyFor (b : Backend) (fd : FdSpec) : Prop where
  columns : ∀ cat, b.Holds cat → cat.HasColumns fd
  table : ∀ cat, b.Holds cat → cat.fdTable.isSome
  noFunction : ∀ cat, b.Holds cat → checkName fd ∉ cat.functions
  noTrigger : ∀ cat, b.Holds cat → (fd.relation, triggerName fd) ∉ cat.triggers

/-- The session has neither effect of a registration. -/
structure Backend.Lacks (b : Backend) (fd : FdSpec) : Prop where
  row : ∀ cat, b.Holds cat → ¬ cat.HasRow fd
  check : ∀ cat, b.Holds cat → ¬ cat.HasCheck fd

/-- Processing a query ends with both effects of a registration. -/
def EndsWithBoth (srv : Server) (b : Backend) (query : List Char) (fd : FdSpec) : Prop :=
  ∃ b' err, exec_simple_query srv b query = .ended b' err ∧
    b'.current.HasRow fd ∧ b'.current.HasCheck fd

/-- Processing a query ends with exactly one of the effects of a registration. -/
def EndsWithExactlyOne (srv : Server) (b : Backend) (query : List Char) (fd : FdSpec) :
    Prop :=
  ∃ b' err, exec_simple_query srv b query = .ended b' err ∧
    ¬ (b'.current.HasRow fd ↔ b'.current.HasCheck fd)

/-- A registration ends, if it ends at all, with a catalog the session held before. -/
theorem holds_of_registration_ended (hg : srv.Grammatical) {b b' : Backend} {err : Option String}
    (hq : isFdQuery query = true) (h : exec_simple_query srv b query = .ended b' err) :
    b.Holds b'.current := by
  rcases exec_simple_query_registration hg b hq with ⟨f, hf⟩ | ⟨e, he⟩
  · rw [hf] at h
    cases h
  · rw [he] at h
    cases h
    exact holds_of_rollback b

/-- A registration of a dependency whose function does not exist does not end with both
effects. -/
theorem not_endsWithBoth (hg : srv.Grammatical) {b : Backend} {fd : FdSpec}
    (hq : isFdQuery query = true) (hr : b.ReadyFor fd) : ¬ EndsWithBoth srv b query fd := by
  rintro ⟨b', err, hend, -, hcheck, -⟩
  exact hr.noFunction _ (holds_of_registration_ended hg hq hend) hcheck

/-- **No registration completes, and none is half done.** The registration statement of a
dependency never ends with both the row and the check, in any session that is ready for it;
and no query with the prefix of a registration ends with exactly one of the two. -/
theorem fd_registration_never_completes (srv : Server) (hg : srv.Grammatical) :
    (∀ (fd : FdSpec) (b : Backend), b.ReadyFor fd → ¬ EndsWithBoth srv b (fdStatement fd) fd) ∧
    (∀ (query : List Char) (b : Backend) (fd : FdSpec), isFdQuery query = true →
      b.Lacks fd → ¬ EndsWithExactlyOne srv b query fd) := by
  constructor
  · intro fd b hr
    exact not_endsWithBoth hg (isFdQuery_fdStatement fd) hr
  · rintro query b fd hq hlacks ⟨b', err, hend, hone⟩
    have hheld := holds_of_registration_ended hg hq hend
    exact hone ⟨fun hrow => absurd hrow (hlacks.row _ hheld),
      fun hcheck => absurd hcheck (hlacks.check _ hheld)⟩

/-! ### A session in which the registration of `fd1` fails -/

/-- The statement that registers `fd1`, as text. -/
def fd1Text : String := String.ofList (fdStatement fdExample)

/-- The command that `add_trigger` generates for `fd1`, as text. -/
def fd1Command : String := String.join (add_trigger_command fdExample)

/-- Execution of the three commands around `fd1`. -/
def fd1Execute (stmt : PlannedStmt) (b : Backend) : Except Raised Backend :=
  match stmt with
  | .utility (.createFunction name) =>
      .ok { b with current := { b.current with functions := name :: b.current.functions } }
  | .utility (.createTrigger name relation) =>
      .ok { b with
        current := { b.current with triggers := (relation, name) :: b.current.triggers } }
  | .modify "INSERT" _ =>
      match b.current.fdTable with
      | some rows =>
          .ok { b with current := { b.current with fdTable := some (fdExample :: rows) } }
      | none => .error ("relation \"fd_table\" does not exist", b)
  | _ => .error ("not supported", b)

/-- A server that knows the two texts around `fd1`. -/
def fd1Server : Server where
  parse src := if src = fd1Command then
      .ok [.utility (.createFunction (checkName fdExample)),
        .utility (.createTrigger (triggerName fdExample) "rel")]
    else if src = fd1Text then .ok [.modify "INSERT" fd1Text]
    else .error "syntax error"
  execute := fd1Execute

/-- A session outside a transaction block, with the relation `rel` and an empty
`FD_table`. -/
def fd1Backend : Backend :=
  let cat : Catalog := ⟨[("rel", ["A", "C"])], [], [], some []⟩
  ⟨cat, cat, .default⟩

/-- The registration statement does not start like a `CREATE FUNCTION`. -/
theorem fd1Text_ne_createFunction (rest : String) : "CREATE FUNCTION " ++ rest ≠ fd1Text := by
  intro h
  have hlist : "CREATE FUNCTION ".toList ++ rest.toList = fdStatement fdExample := by
    rw [← String.toList_append, h, fd1Text, String.toList_ofList]
  have hhead : some (Char.ofNat 67) = some (Char.ofNat 105) := congrArg List.head? hlist
  exact absurd hhead (by decide)

/-- The server for `fd1` reads its command as the grammar does. -/
theorem fd1Server_grammatical : fd1Server.Grammatical := by
  intro rest stmts h
  simp only [fd1Server, fd1Text_ne_createFunction rest] at h
  split at h
  · cases h
    exact ⟨_, _, rfl⟩
  · cases h

/-- The session is ready for the registration of `fd1`. -/
theorem fd1Backend_readyFor : fd1Backend.ReadyFor fdExample := by
  have hcat : ∀ cat, fd1Backend.Holds cat → cat = ⟨[("rel", ["A", "C"])], [], [], some []⟩ := by
    rintro cat (rfl | rfl) <;> rfl
  refine ⟨fun cat h => ?_, fun cat h => ?_, fun cat h => ?_, fun cat h => ?_⟩ <;>
    rw [hcat cat h]
  · exact ⟨["A", "C"], List.mem_singleton.mpr rfl, by decide⟩
  · rfl
  · exact List.not_mem_nil
  · exact List.not_mem_nil

/-- The registration of `fd1` does not complete, and is not half done either. -/
theorem fd1_registration_never_completes :
    fd1Server.Grammatical ∧
    ¬ EndsWithBoth fd1Server fd1Backend (fdStatement fdExample) fdExample :=
  ⟨fd1Server_grammatical, (fd_registration_never_completes fd1Server
    fd1Server_grammatical).1 fdExample fd1Backend fd1Backend_readyFor⟩

/-- A ready session in which a well-formed registration does not end with both effects. -/
theorem fd1_registration_incomplete :
    ¬ ∀ (fd : FdSpec) (b : Backend), b.ReadyFor fd →
      EndsWithBoth fd1Server b (fdStatement fd) fd := by
  intro h
  exact not_endsWithBoth fd1Server_grammatical (isFdQuery_fdStatement fdExample)
    fd1Backend_readyFor (h fdExample fd1Backend fd1Backend_readyFor)

end FdPostgres
