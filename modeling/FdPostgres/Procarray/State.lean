import FdPostgres.Procarray.FullIds

/-!
# The Process Array and Snapshots

What `procarray.c` keeps in shared memory about running transactions, and the snapshot that
`GetSnapshotData` builds from it. A backend shows its top transaction, the oldest id its snapshots
need, and up to 64 of its subtransactions; if there are more it only says so. On a standby the ids
of the primary are kept in `KnownAssignedXids` instead.

* `PGPROC`, `ProcArray`: the shared state.
* `snapshotProc`, `KnownAssignedXidsGetAndSetXmin`: the loops of `GetSnapshotData`.
* `buildSnapshot`: the snapshot that they make.
-/

namespace FdPostgres

def PGPROC_MAX_CACHED_SUBXIDS : ℕ := 64

/-- `PGPROC`, with the mirrored fields of `PROC_HDR`. The flags are `PROC_IN_VACUUM` and
`PROC_IN_LOGICAL_DECODING` of `statusFlags`. -/
structure PGPROC where
  xid : ℕ
  xmin : ℕ
  databaseId : ℕ
  inVacuum : Bool
  inLogicalDecoding : Bool
  subxids : List ℕ
  overflowed : Bool
  deriving Repr, DecidableEq, Inhabited

/-- `ProcArrayStruct`, the fields of `VariableCacheData` that go with it, and what the calling
backend knows of itself: its place in the array and its database. -/
structure ProcArray where
  procs : List PGPROC
  mypgxactoff : ℕ
  MyDatabaseId : ℕ
  latestCompletedXid : ℕ
  oldestXid : ℕ
  replication_slot_xmin : ℕ
  replication_slot_catalog_xmin : ℕ
  recoveryInProgress : Bool
  knownAssignedXids : List ℕ
  lastOverflowedXid : ℕ
  deriving Repr, DecidableEq

namespace ProcArray

variable (arrayP : ProcArray)

def MyProc : PGPROC := arrayP.procs[arrayP.mypgxactoff]?.getD default

/-- The id after `latestCompletedXid`: the `xmax` of a snapshot, and where the horizons start. -/
def afterLatest : ℕ := TransactionIdAdvance (XidFromFullTransactionId arrayP.latestCompletedXid)

end ProcArray

/-! ### Building a snapshot -/

/-- The variables of the loop of `GetSnapshotData`. -/
structure SnapshotLoop where
  xmin : ℕ
  xip : List ℕ
  subxip : List ℕ
  suboverflowed : Bool

/-- The body of the loop of `GetSnapshotData`. -/
def snapshotProc (mypgxactoff xmax : ℕ) (l : SnapshotLoop) (proc : PGPROC × ℕ) : SnapshotLoop :=
  let (proc, pgxactoff) := proc
  if proc.xid = InvalidTransactionId then l
  else if pgxactoff = mypgxactoff then l
  else if !NormalTransactionIdPrecedes proc.xid xmax then l
  else if proc.inLogicalDecoding || proc.inVacuum then l
  else
    let xmin := if NormalTransactionIdPrecedes proc.xid l.xmin then proc.xid else l.xmin
    let l := { l with xmin := xmin, xip := l.xip ++ [proc.xid] }
    if l.suboverflowed then l
    else if proc.overflowed then { l with suboverflowed := true }
    else { l with subxip := l.subxip ++ proc.subxids }

/-- `KnownAssignedXidsGetAndSetXmin`, over the valid entries of the array: the ids before `xmax`,
and `xmin` with the first one. -/
def KnownAssignedXidsGetAndSetXmin (xmax : ℕ) : List ℕ → List ℕ → ℕ → List ℕ × ℕ
  | [], xarray, xmin => (xarray, xmin)
  | knownXid :: rest, xarray, xmin =>
      let xmin :=
        if xarray.length = 0 && TransactionIdPrecedes knownXid xmin then knownXid else xmin
      if TransactionIdIsValid xmax && TransactionIdFollowsOrEquals knownXid xmax then (xarray, xmin)
      else KnownAssignedXidsGetAndSetXmin xmax rest (xarray ++ [knownXid]) xmin

variable (arrayP : ProcArray)

/-- The `xmin` that the loops start with: the own transaction counts, although it is not listed. -/
def initialXmin : ℕ :=
  let xmax := arrayP.afterLatest
  let myxid := arrayP.MyProc.xid
  if TransactionIdIsNormal myxid && NormalTransactionIdPrecedes myxid xmax then myxid else xmax

/-- The loop of `GetSnapshotData` over the backends. -/
def snapshotLoop : SnapshotLoop :=
  arrayP.procs.zipIdx.foldl (snapshotProc arrayP.mypgxactoff arrayP.afterLatest)
    ⟨initialXmin arrayP, [], [], false⟩

/-- The snapshot of `GetSnapshotData`, when it is built anew. -/
def buildSnapshot (curcid : ℕ) : SnapshotData :=
  let xmax := arrayP.afterLatest
  if !arrayP.recoveryInProgress then
    let l := snapshotLoop arrayP
    { xmin := l.xmin, xmax := xmax, xip := l.xip, subxip := l.subxip,
      suboverflowed := l.suboverflowed, takenDuringRecovery := false, curcid := curcid }
  else
    let (subxip, xmin) :=
      KnownAssignedXidsGetAndSetXmin xmax arrayP.knownAssignedXids [] (initialXmin arrayP)
    { xmin := xmin, xmax := xmax, xip := [], subxip := subxip,
      suboverflowed := TransactionIdPrecedesOrEquals xmin arrayP.lastOverflowedXid,
      takenDuringRecovery := true, curcid := curcid }

end FdPostgres
