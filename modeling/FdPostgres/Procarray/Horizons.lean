import FdPostgres.Procarray.State

/-!
# Horizons of Row Removal

A row may be removed once nobody can still see it. Each backend keeps two bounds for that, of 64
bits, for every kind of relation: ids before `maybe_needed` are over for everyone, ids from
`definitely_needed` on are not, and for the ids between them the horizons are computed anew.
`vacuum_defer_cleanup_age` moves the horizons back, so that rows are kept longer.

* `ComputeXidHorizons`, `GlobalVisUpdateApply`, `snapshotGlobalVis`: how the bounds are installed.
* `GlobalVisTestIsRemovableXid`: how they are used.
-/

namespace FdPostgres

/-! ### The bounds -/

structure GlobalVisState where
  definitely_needed : ℕ
  maybe_needed : ℕ
  deriving Repr, DecidableEq

inductive GlobalVisHorizonKind where
  | VISHORIZON_SHARED
  | VISHORIZON_CATALOG
  | VISHORIZON_DATA
  | VISHORIZON_TEMP
  deriving Repr, DecidableEq

open GlobalVisHorizonKind

/-- The variables of a backend: the bounds for each kind of relation, `RecentXmin` and
`ComputeXidHorizonsResultLastXmin`. -/
structure GlobalVis where
  GlobalVisSharedRels : GlobalVisState
  GlobalVisCatalogRels : GlobalVisState
  GlobalVisDataRels : GlobalVisState
  GlobalVisTempRels : GlobalVisState
  RecentXmin : ℕ
  ComputeXidHorizonsResultLastXmin : ℕ
  deriving Repr, DecidableEq

namespace GlobalVis

/-- The bounds that `GlobalVisTestFor` selects. -/
def testFor (vis : GlobalVis) : GlobalVisHorizonKind → GlobalVisState
  | VISHORIZON_SHARED => vis.GlobalVisSharedRels
  | VISHORIZON_CATALOG => vis.GlobalVisCatalogRels
  | VISHORIZON_DATA => vis.GlobalVisDataRels
  | VISHORIZON_TEMP => vis.GlobalVisTempRels

/-- The variables of a new backend. -/
def fresh : GlobalVis where
  GlobalVisSharedRels := ⟨0, 0⟩
  GlobalVisCatalogRels := ⟨0, 0⟩
  GlobalVisDataRels := ⟨0, 0⟩
  GlobalVisTempRels := ⟨0, 0⟩
  RecentXmin := FirstNormalTransactionId
  ComputeXidHorizonsResultLastXmin := InvalidTransactionId

end GlobalVis

/-! ### Computing the horizons -/

structure ComputeXidHorizonsResult where
  latest_completed : ℕ
  slot_xmin : ℕ
  slot_catalog_xmin : ℕ
  oldest_considered_running : ℕ
  shared_oldest_nonremovable : ℕ
  shared_oldest_nonremovable_raw : ℕ
  catalog_oldest_nonremovable : ℕ
  data_oldest_nonremovable : ℕ
  temp_oldest_nonremovable : ℕ
  deriving Repr, DecidableEq

/-- The horizons that the loop of `ComputeXidHorizons` moves back. -/
structure HorizonLoop where
  oldest_considered_running : ℕ
  shared_oldest_nonremovable : ℕ
  data_oldest_nonremovable : ℕ

namespace ProcArray

variable (arrayP : ProcArray)

/-- A backend in another database does not count for the relations of this one. -/
def sameDatabase (proc : PGPROC) : Bool :=
  arrayP.recoveryInProgress || arrayP.MyDatabaseId == 0 ||
    proc.databaseId == arrayP.MyDatabaseId || proc.databaseId == 0

/-- The body of the loop of `ComputeXidHorizons`. -/
def horizonProc (h : HorizonLoop) (proc : PGPROC) : HorizonLoop :=
  let xmin := TransactionIdOlder proc.xmin proc.xid
  if !TransactionIdIsValid xmin then h
  else
    let h :=
      { h with oldest_considered_running := TransactionIdOlder h.oldest_considered_running xmin }
    if proc.inVacuum || proc.inLogicalDecoding then h
    else
      let h :=
        { h with
          shared_oldest_nonremovable := TransactionIdOlder h.shared_oldest_nonremovable xmin }
      if arrayP.sameDatabase proc then
        { h with data_oldest_nonremovable := TransactionIdOlder h.data_oldest_nonremovable xmin }
      else h

/-- The loop of `ComputeXidHorizons`. -/
def horizonLoop : HorizonLoop :=
  arrayP.procs.foldl arrayP.horizonProc
    ⟨arrayP.afterLatest, arrayP.afterLatest, arrayP.afterLatest⟩

def KnownAssignedXidsGetOldestXmin : ℕ := arrayP.knownAssignedXids.head?.getD InvalidTransactionId

/-- On a standby the known ids of the primary count, elsewhere the horizon is moved back. -/
def deferCleanup (vacuum_defer_cleanup_age horizon : ℕ) : ℕ :=
  if arrayP.recoveryInProgress then
    TransactionIdOlder horizon arrayP.KnownAssignedXidsGetOldestXmin
  else TransactionIdRetreatedBy horizon vacuum_defer_cleanup_age

/-- `ComputeXidHorizons`, up to the update of the bounds. -/
def ComputeXidHorizons (vacuum_defer_cleanup_age : ℕ) : ComputeXidHorizonsResult :=
  let initial := arrayP.afterLatest
  let temp := if TransactionIdIsValid arrayP.MyProc.xid then arrayP.MyProc.xid else initial
  let slot_xmin := arrayP.replication_slot_xmin
  let slot_catalog_xmin := arrayP.replication_slot_catalog_xmin
  let h := arrayP.horizonLoop
  let running := arrayP.deferCleanup vacuum_defer_cleanup_age h.oldest_considered_running
  let shared := arrayP.deferCleanup vacuum_defer_cleanup_age h.shared_oldest_nonremovable
  let data := arrayP.deferCleanup vacuum_defer_cleanup_age h.data_oldest_nonremovable
  let shared_raw := TransactionIdOlder shared slot_xmin
  let data := TransactionIdOlder data slot_xmin
  let shared := TransactionIdOlder shared_raw slot_catalog_xmin
  let catalog := TransactionIdOlder data slot_catalog_xmin
  let running := TransactionIdOlder running shared
  let running := TransactionIdOlder running catalog
  let running := TransactionIdOlder running data
  { latest_completed := arrayP.latestCompletedXid
    slot_xmin := slot_xmin
    slot_catalog_xmin := slot_catalog_xmin
    oldest_considered_running := running
    shared_oldest_nonremovable := shared
    shared_oldest_nonremovable_raw := shared_raw
    catalog_oldest_nonremovable := catalog
    data_oldest_nonremovable := data
    temp_oldest_nonremovable := temp }

end ProcArray

/-! ### Installing them -/

/-- What `GlobalVisUpdateApply` does with the bounds of one kind, temporary relations apart. -/
def GlobalVisState.apply (state : GlobalVisState) (latest_completed horizon : ℕ) :
    GlobalVisState :=
  let maybe_needed := FullXidRelativeTo latest_completed horizon
  { maybe_needed := maybe_needed
    definitely_needed := FullTransactionIdNewer maybe_needed state.definitely_needed }

def GlobalVisUpdateApply (vis : GlobalVis) (horizons : ComputeXidHorizonsResult) : GlobalVis :=
  let latest := horizons.latest_completed
  let temp := FullXidRelativeTo latest horizons.temp_oldest_nonremovable
  { GlobalVisSharedRels :=
      vis.GlobalVisSharedRels.apply latest horizons.shared_oldest_nonremovable
    GlobalVisCatalogRels :=
      vis.GlobalVisCatalogRels.apply latest horizons.catalog_oldest_nonremovable
    GlobalVisDataRels :=
      vis.GlobalVisDataRels.apply latest horizons.data_oldest_nonremovable
    GlobalVisTempRels := ⟨temp, temp⟩
    RecentXmin := vis.RecentXmin
    ComputeXidHorizonsResultLastXmin := vis.RecentXmin }

variable (arrayP : ProcArray) (vacuum_defer_cleanup_age : ℕ)

def GlobalVisUpdate (vis : GlobalVis) : GlobalVis :=
  GlobalVisUpdateApply vis (arrayP.ComputeXidHorizons vacuum_defer_cleanup_age)

/-- The loop of `FullTransactionIdAdvance`, which steps over at most the special ids. -/
def fullAdvanceLoop : ℕ → ℕ → ℕ
  | 0, dest => dest
  | fuel + 1, dest =>
      if XidFromFullTransactionId dest < FirstNormalTransactionId then
        fullAdvanceLoop fuel ((dest + 1) % 2 ^ 64)
      else dest

def FullTransactionIdAdvance (dest : ℕ) : ℕ :=
  let dest := (dest + 1) % 2 ^ 64
  if dest < FirstNormalTransactionId then dest
  else fullAdvanceLoop (FirstNormalTransactionId + 1) dest

/-- What `GetSnapshotData` does with the bounds of one kind, temporary relations apart. -/
def GlobalVisState.install (state : GlobalVisState) (def_vis_fxid oldestfxid : ℕ) :
    GlobalVisState where
  definitely_needed := FullTransactionIdNewer def_vis_fxid state.definitely_needed
  maybe_needed := FullTransactionIdNewer state.maybe_needed oldestfxid

/-- What `GetSnapshotData` does with the bounds. -/
def snapshotGlobalVis (vis : GlobalVis) : GlobalVis :=
  let latest_completed := arrayP.latestCompletedXid
  let xmin := (buildSnapshot arrayP 0).xmin
  let oldestfxid := FullXidRelativeTo latest_completed arrayP.oldestXid
  let def_vis_xid_data := TransactionIdRetreatedBy xmin vacuum_defer_cleanup_age
  let def_vis_xid_data := TransactionIdOlder def_vis_xid_data arrayP.replication_slot_xmin
  let def_vis_xid := TransactionIdOlder arrayP.replication_slot_catalog_xmin def_vis_xid_data
  let def_vis_fxid := FullXidRelativeTo latest_completed def_vis_xid
  let def_vis_fxid_data := FullXidRelativeTo latest_completed def_vis_xid_data
  let temp :=
    if TransactionIdIsNormal arrayP.MyProc.xid then
      FullXidRelativeTo latest_completed arrayP.MyProc.xid
    else FullTransactionIdAdvance latest_completed
  { GlobalVisSharedRels := vis.GlobalVisSharedRels.install def_vis_fxid oldestfxid
    GlobalVisCatalogRels := vis.GlobalVisCatalogRels.install def_vis_fxid oldestfxid
    GlobalVisDataRels := vis.GlobalVisDataRels.install def_vis_fxid_data oldestfxid
    GlobalVisTempRels := ⟨temp, temp⟩
    RecentXmin := xmin
    ComputeXidHorizonsResultLastXmin := vis.ComputeXidHorizonsResultLastXmin }

/-! ### Using them -/

def GlobalVisTestShouldUpdate (vis : GlobalVis) (kind : GlobalVisHorizonKind) : Bool :=
  if !TransactionIdIsValid vis.ComputeXidHorizonsResultLastXmin then true
  else if (vis.testFor kind).maybe_needed ≥ (vis.testFor kind).definitely_needed then false
  else vis.RecentXmin != vis.ComputeXidHorizonsResultLastXmin

/-- `GlobalVisTestIsRemovableFullXid`, with the variables that it leaves behind. -/
def GlobalVisTestIsRemovableFullXid (vis : GlobalVis) (kind : GlobalVisHorizonKind) (fxid : ℕ) :
    Bool × GlobalVis :=
  if fxid < (vis.testFor kind).maybe_needed then (true, vis)
  else if fxid ≥ (vis.testFor kind).definitely_needed then (false, vis)
  else if GlobalVisTestShouldUpdate vis kind then
    let vis := GlobalVisUpdate arrayP vacuum_defer_cleanup_age vis
    (decide (fxid < (vis.testFor kind).maybe_needed), vis)
  else (false, vis)

def GlobalVisTestIsRemovableXid (vis : GlobalVis) (kind : GlobalVisHorizonKind) (xid : ℕ) :
    Bool × GlobalVis :=
  GlobalVisTestIsRemovableFullXid arrayP vacuum_defer_cleanup_age vis kind
    (FullXidRelativeTo (vis.testFor kind).definitely_needed xid)

end FdPostgres
