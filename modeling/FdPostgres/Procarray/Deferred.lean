import FdPostgres.Procarray.Window

/-!
# Horizons that are Moved Back

`vacuum_defer_cleanup_age` moves the horizons of row removal back by a number of transactions. The
horizon is moved back as an id of 32 bits and then widened to 64 bits by its signed distance from
the latest completed id. This is right while the integer behind the id stays above zero, that is,
while the horizon is at least as far from the start of the 64-bit ids as it is moved back. Below,
the widened id wraps around to the end of the 64-bit ids.

* `Deferred`: a horizon against the one that is not moved back.
* `ProcArray.DeferFits`: there is room for moving back.
* `ProcArray.Protected`: the ids that backends need.
* `ProcArray.Valid.snapshotHorizon`, `ProcArray.Valid.computedHorizon`: the horizons of each kind.
-/

namespace FdPostgres

open GlobalVisHorizonKind List

/-! ### Moving a horizon back -/

/-- **A horizon against the one that is not moved back.** It is not later as an integer, and it is
above zero exactly if there is room. Neither is later than a bound. -/
def Deferred (W : IdWindow) (horizon horizon0 : ℕ) (fits : Prop) (bound : ℕ) : Prop :=
  ∃ y y0 : ℤ, W.Near horizon y ∧ W.Near horizon0 y0 ∧ y ≤ y0 ∧ 0 ≤ y0 ∧ y0 ≤ bound ∧ (0 ≤ y ↔ fits)

namespace Deferred

variable {W : IdWindow} {arrayP : ProcArray} {horizon horizon0 bound slot : ℕ} {fits : Prop}

/-- A horizon is moved back. -/
theorem retreat {x age : ℕ} (hx : W.Holds horizon x) (hage : age ≤ 1000000) :
    Deferred W (TransactionIdRetreatedBy horizon age)
      (TransactionIdRetreatedBy horizon 0) (age + 3 ≤ x) x := by
  obtain ⟨y, hy, hyhi, hylo, hfits⟩ := hx.id.retreatedBy age
  have hlo := hx.lo
  have hhi := hx.hi
  rw [hx.id.retreatedBy_zero]
  refine ⟨y, x, ⟨hy, by omega, by omega⟩, hx.near, by omega, by omega, by omega, ?_⟩
  rw [hfits]
  omega

theorem same {x : ℕ} (hx : W.Holds horizon x) : Deferred W horizon horizon True x :=
  ⟨x, x, hx.near, hx.near, le_rfl, Int.natCast_nonneg x, le_rfl,
    iff_of_true (Int.natCast_nonneg x) trivial⟩

variable (h : Deferred W horizon horizon0 fits bound)

include h

/-- The horizon that is not moved back. -/
theorem zero : Deferred W horizon0 horizon0 True bound := by
  obtain ⟨y, y0, -, hy0, -, hnn, hbound, -⟩ := h
  exact ⟨y0, y0, hy0, hy0, le_rfl, hnn, hbound, iff_of_true hnn trivial⟩

/-- A replication slot keeps both horizons back. -/
theorem older (hslot : W.MayHold slot) :
    Deferred W (TransactionIdOlder horizon slot) (TransactionIdOlder horizon0 slot) fits bound := by
  rcases hslot with rfl | ⟨m, hm⟩
  · rw [TransactionIdOlder_invalid_right, TransactionIdOlder_invalid_right]
    exact h
  · obtain ⟨y, y0, hy, hy0, hle, hnn, hbound, hfits⟩ := h
    refine ⟨min y m, min y0 m, hy.older hm.near, hy0.older hm.near, by omega, by omega, by omega,
      ?_⟩
    rw [← hfits]
    omega

/-- A replication slot keeps both horizons back. -/
theorem older_left (hslot : W.MayHold slot) :
    Deferred W (TransactionIdOlder slot horizon) (TransactionIdOlder slot horizon0) fits bound := by
  rcases hslot with rfl | ⟨m, hm⟩
  · exact h
  · obtain ⟨y, y0, hy, hy0, hle, hnn, hbound, hfits⟩ := h
    refine ⟨min m y, min m y0, hm.near.older hy, hm.near.older hy0, by omega, by omega, by omega,
      ?_⟩
    rw [← hfits]
    omega

variable (hvalid : arrayP.Valid W)

include hvalid

/-- With room, the 64-bit horizon is not later than the bound and close to the ids in use. -/
theorem full_le
    (hroom : fits) : arrayP.full horizon ≤ bound ∧ W.base ≤ arrayP.full horizon + 1000003 ∧
      arrayP.full horizon ≤ W.next := by
  obtain ⟨y, y0, hy, hy0, hle, -, hbound, hfits⟩ := h
  have hfull := hvalid.full_near_of_nonneg hy (hfits.mpr hroom)
  have hlo := hy.lo
  have hhi := hy.hi
  omega

/-- The 64-bit horizon is valid. -/
theorem full_valid : FullTransactionIdIsValid (arrayP.full horizon) = true := by
  obtain ⟨y, y0, hy, -, -, -, -, -⟩ := h
  have hword := hy.id.word
  have hfull := hvalid.full_near hy
  have hnorm := hy.id.normal
  rw [FirstNormalTransactionId] at hnorm
  simp only [FullTransactionIdIsValid, TransactionIdIsValid, XidFromFullTransactionId,
    InvalidTransactionId, bne_iff_ne]
  omega

/-- With room, the newer one of the horizon and an earlier bound is close to the ids in use. -/
theorem newer_near (hroom : fits) {d : ℕ} (hd : d ≤ W.next) :
    W.base ≤ FullTransactionIdNewer (arrayP.full horizon) d + 1000003 ∧
      FullTransactionIdNewer (arrayP.full horizon) d ≤ W.next := by
  obtain ⟨-, hlo, hhi⟩ := h.full_le hvalid hroom
  rw [FullTransactionIdNewer_left (h.full_valid hvalid)]
  split <;> omega

end Deferred

/-! ### The horizons of each kind -/

namespace ProcArray

variable (arrayP : ProcArray) (vacuum_defer_cleanup_age : ℕ)

/-- The horizon that `GetSnapshotData` installs. -/
def snapshotHorizon : GlobalVisHorizonKind → ℕ
  | VISHORIZON_DATA =>
      TransactionIdOlder
        (TransactionIdRetreatedBy (buildSnapshot arrayP 0).xmin vacuum_defer_cleanup_age)
        arrayP.replication_slot_xmin
  | _ =>
      TransactionIdOlder arrayP.replication_slot_catalog_xmin
        (TransactionIdOlder
          (TransactionIdRetreatedBy (buildSnapshot arrayP 0).xmin vacuum_defer_cleanup_age)
          arrayP.replication_slot_xmin)

/-- The horizon of the loop that the horizon of a kind starts from. -/
def loopHorizon : GlobalVisHorizonKind → ℕ
  | VISHORIZON_SHARED => arrayP.horizonLoop.shared_oldest_nonremovable
  | _ => arrayP.horizonLoop.data_oldest_nonremovable

/-- The horizon that `ComputeXidHorizons` finds. -/
def computedHorizon : GlobalVisHorizonKind → ℕ
  | VISHORIZON_SHARED =>
      (arrayP.ComputeXidHorizons vacuum_defer_cleanup_age).shared_oldest_nonremovable
  | VISHORIZON_CATALOG =>
      (arrayP.ComputeXidHorizons vacuum_defer_cleanup_age).catalog_oldest_nonremovable
  | VISHORIZON_DATA =>
      (arrayP.ComputeXidHorizons vacuum_defer_cleanup_age).data_oldest_nonremovable
  | VISHORIZON_TEMP =>
      (arrayP.ComputeXidHorizons vacuum_defer_cleanup_age).temp_oldest_nonremovable

/-- **There is room for moving the horizons back**: each of them is at least that far from the start
of the 64-bit ids. -/
structure DeferFits : Prop where
  snapshot : vacuum_defer_cleanup_age + 3 ≤ arrayP.full (buildSnapshot arrayP 0).xmin
  shared : arrayP.recoveryInProgress = false →
    vacuum_defer_cleanup_age + 3 ≤ arrayP.full arrayP.horizonLoop.shared_oldest_nonremovable
  data : arrayP.recoveryInProgress = false →
    vacuum_defer_cleanup_age + 3 ≤ arrayP.full arrayP.horizonLoop.data_oldest_nonremovable

/-- The ids that must not be removed from relations of a kind: those of the backends that count for
it, and for temporary relations that of the own transaction. -/
def needed : GlobalVisHorizonKind → List ℕ
  | VISHORIZON_SHARED =>
      (arrayP.procs.filter countsShared).flatMap fun proc => [proc.xid, proc.xmin]
  | VISHORIZON_CATALOG | VISHORIZON_DATA =>
      (arrayP.procs.filter arrayP.countsData).flatMap fun proc => [proc.xid, proc.xmin]
  | VISHORIZON_TEMP => [arrayP.MyProc.xid]

/-- **A backend still needs the rows of a transaction**: its own transaction, or the oldest one its
snapshots need, is not later. -/
def Protected (kind : GlobalVisHorizonKind) (xid : ℕ) : Prop :=
  ∃ i ∈ arrayP.needed kind, TransactionIdIsValid i = true ∧
    TransactionIdPrecedesOrEquals i xid = true

variable {arrayP} {age : ℕ} {W : IdWindow} (h : arrayP.Valid W)

include h

variable {kind : GlobalVisHorizonKind}

/-- The ids that must not be removed are ids in use. -/
theorem Valid.needed {i : ℕ} (hi : i ∈ arrayP.needed kind) : W.MayHold i := by
  have hprocs : ∀ counts : PGPROC → Bool, i ∈ (arrayP.procs.filter counts).flatMap
      (fun proc => [proc.xid, proc.xmin]) → W.MayHold i := by
    intro counts hi
    obtain ⟨proc, hproc, hi⟩ := mem_flatMap.mp hi
    obtain ⟨hxid, hxmin⟩ := h.procs proc (mem_filter.mp hproc).1
    rcases mem_pair.mp hi with rfl | rfl
    · exact hxid
    · exact hxmin
  cases kind with
  | VISHORIZON_SHARED => exact hprocs _ hi
  | VISHORIZON_CATALOG => exact hprocs _ hi
  | VISHORIZON_DATA => exact hprocs _ hi
  | VISHORIZON_TEMP =>
    rw [mem_singleton.mp hi]
    exact h.myProc

/-- The horizon of a snapshot against the one that is not moved back. -/
theorem Valid.snapshotHorizon (hage : age ≤ 1000000)
    (kind : GlobalVisHorizonKind) :
    Deferred W (arrayP.snapshotHorizon age kind)
      (arrayP.snapshotHorizon 0 kind) (age + 3 ≤ arrayP.full (buildSnapshot arrayP 0).xmin)
      (arrayP.full (buildSnapshot arrayP 0).xmin) := by
  obtain ⟨y, hy⟩ := h.snapshot_xmin 0
  rw [h.full_eq hy]
  have hdata := (Deferred.retreat hy hage).older h.slot
  cases kind with
  | VISHORIZON_SHARED | VISHORIZON_CATALOG => exact hdata.older_left h.slotCatalog
  | VISHORIZON_DATA => exact hdata
  | VISHORIZON_TEMP => exact hdata.older_left h.slotCatalog

/-- **The loop finds a lower bound of the ids that must not be removed.** -/
theorem Valid.loopHorizon (hkind : kind ≠ VISHORIZON_TEMP) :
    ∃ x, W.Holds (arrayP.loopHorizon kind) x ∧ x ≤ arrayP.full arrayP.afterLatest ∧
      ∀ i ∈ arrayP.needed kind, TransactionIdIsValid i = true → x ≤ arrayP.full i := by
  obtain ⟨a, ha, -⟩ := h.afterLatest
  rw [h.full_eq ha]
  obtain ⟨hshar, hdata⟩ := foldl_horizonProc arrayP arrayP.procs
    ⟨arrayP.afterLatest, arrayP.afterLatest, arrayP.afterLatest⟩
  have hspec : ∀ counts : PGPROC → Bool, ∃ x,
      W.Holds (oldestOf counts arrayP.afterLatest arrayP.procs) x ∧ x ≤ a ∧
        ∀ i ∈ (arrayP.procs.filter counts).flatMap (fun proc => [proc.xid, proc.xmin]),
          TransactionIdIsValid i = true → x ≤ arrayP.full i := by
    intro counts
    obtain ⟨x, hx, hle, hlower⟩ := oldestOf_spec h.procs _ a ha
    refine ⟨x, hx, hle, ?_⟩
    intro i hi hivalid
    obtain ⟨proc, hproc, hi⟩ := mem_flatMap.mp hi
    obtain ⟨hproc, hcnts⟩ := mem_filter.mp hproc
    obtain ⟨hxid, hxmin⟩ := hlower proc hproc hcnts
    obtain ⟨hmayXid, hmayXmin⟩ := h.procs proc hproc
    have hfull : W.MayHold i → (∀ z, W.Holds i z → x ≤ z) → x ≤ arrayP.full i := by
      rintro (rfl | ⟨z, hz⟩) hbound
      · exact absurd hivalid (by decide)
      · rw [h.full_eq hz]
        exact hbound z hz
    rcases mem_pair.mp hi with rfl | rfl
    · exact hfull hmayXid hxid
    · exact hfull hmayXmin hxmin
  cases kind with
  | VISHORIZON_SHARED =>
    rw [ProcArray.loopHorizon, horizonLoop, hshar]
    exact hspec _
  | VISHORIZON_CATALOG | VISHORIZON_DATA =>
    rw [ProcArray.loopHorizon, horizonLoop, hdata]
    · exact hspec _
    · exact nofun
  | VISHORIZON_TEMP => exact absurd rfl hkind

/-- The oldest known id of the primary. -/
theorem Valid.knownOldest : W.MayHold arrayP.KnownAssignedXidsGetOldestXmin := by
  rw [KnownAssignedXidsGetOldestXmin]
  cases hknown : arrayP.knownAssignedXids with
  | nil => exact .inl rfl
  | cons xid rest => exact .inr (h.known xid (by rw [hknown]; exact mem_cons_self))

/-- A horizon of the loop is moved back outside of recovery only. -/
theorem Valid.deferCleanup (hage : age ≤ 1000000)
    {horizon x : ℕ} (hx : W.Holds horizon x) :
    Deferred W (arrayP.deferCleanup age horizon)
      (arrayP.deferCleanup 0 horizon) (arrayP.recoveryInProgress = false → age + 3 ≤ x) x := by
  by_cases hrec : arrayP.recoveryInProgress = true
  · simp only [ProcArray.deferCleanup, hrec, if_true, Bool.true_eq_false, false_implies]
    exact (Deferred.same hx).older h.knownOldest
  · have hfalse : arrayP.recoveryInProgress = false := by simpa using hrec
    simp only [ProcArray.deferCleanup, hfalse, Bool.false_eq_true, if_false, true_implies]
    exact Deferred.retreat hx hage

/-- **The horizon of `ComputeXidHorizons`** against the one that is not moved back. -/
theorem Valid.computedHorizon (hage : age ≤ 1000000) (hkind : kind ≠ VISHORIZON_TEMP) :
    Deferred W (arrayP.computedHorizon age kind) (arrayP.computedHorizon 0 kind)
      (arrayP.recoveryInProgress = false → age + 3 ≤ arrayP.full (arrayP.loopHorizon kind))
      (arrayP.full (arrayP.loopHorizon kind)) := by
  obtain ⟨x, hx, -, -⟩ := h.loopHorizon hkind
  rw [h.full_eq hx]
  have hdefer := (h.deferCleanup hage hx).older h.slot
  cases kind with
  | VISHORIZON_SHARED | VISHORIZON_CATALOG => exact hdefer.older h.slotCatalog
  | VISHORIZON_DATA => exact hdefer
  | VISHORIZON_TEMP => exact absurd rfl hkind

omit h in
/-- The loop of `FullTransactionIdAdvance` does not go past a number with a normal low word. -/
theorem fullAdvanceLoop_le {z : ℕ} (hz : FirstNormalTransactionId ≤ z % 2 ^ 32)
    (hlt : z < 2 ^ 64) : ∀ (fuel dest : ℕ), dest ≤ z →
    dest ≤ fullAdvanceLoop fuel dest ∧ fullAdvanceLoop fuel dest ≤ z
  | 0, dest, hle => ⟨le_rfl, hle⟩
  | fuel + 1, dest, hle => by
      rw [fullAdvanceLoop]
      by_cases hnorm : XidFromFullTransactionId dest < FirstNormalTransactionId
      · have hne : dest ≠ z := by
          rintro rfl
          exact Nat.not_lt.mpr hz hnorm
        have hmod : (dest + 1) % 2 ^ 64 = dest + 1 := Nat.mod_eq_of_lt (by omega)
        rw [if_pos hnorm, hmod]
        obtain ⟨hlo, hhi⟩ := fullAdvanceLoop_le hz hlt fuel (dest + 1) (by omega)
        exact ⟨by omega, hhi⟩
      · rw [if_neg hnorm]
        exact ⟨le_rfl, hle⟩

/-- The 64-bit id after the latest completed one. -/
theorem Valid.fullAdvance : W.base ≤ FullTransactionIdAdvance arrayP.latestCompletedXid ∧
      FullTransactionIdAdvance arrayP.latestCompletedXid ≤ W.next := by
  have hlat := h.latest_lt
  have hbase := h.base_le
  have hlt := W.next_lt
  have hmod : (arrayP.latestCompletedXid + 1) % 2 ^ 64 = arrayP.latestCompletedXid + 1 :=
    Nat.mod_eq_of_lt (by omega)
  simp only [FullTransactionIdAdvance, hmod]
  split
  · exact ⟨hbase, hlat⟩
  · obtain ⟨hlo, hhi⟩ := fullAdvanceLoop_le W.normal hlt (FirstNormalTransactionId + 1)
      (arrayP.latestCompletedXid + 1) hlat
    exact ⟨hbase.trans hlo, hhi⟩

end ProcArray

end FdPostgres
