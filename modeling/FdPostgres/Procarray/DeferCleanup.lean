import FdPostgres.Procarray.Deferred

/-!
# Deferred Cleanup

Moving the horizons back should only ever keep more rows. It does, exactly if there is room below
the horizons.

* `GlobalVis.Safe`: the bounds of a backend do not pass an id that must not be removed.
* `GlobalVis.Safe.snapshot`, `GlobalVis.Safe.update`, `GlobalVis.Safe.advance`: what keeps it so.
* `BoundsReached`: the bounds that the calls of a backend leave behind.
* `deferCleanup_keeps`: **deferring keeps rows exactly if there is room**, and then no id that a
  backend needs is taken for removable, as long as the needed ids advance.
* `needed_goes_back`: why they have to, also without deferring.
-/

namespace FdPostgres

open GlobalVisHorizonKind

/-! ### The bounds that are left behind -/

namespace GlobalVis

variable (vis vis' : GlobalVis) (arrayP arrayP' : ProcArray) (W W' : IdWindow)

/-- The ids that are not needed yet and will be assigned later are not before this one. -/
def limit : GlobalVisHorizonKind → ℕ
  | VISHORIZON_TEMP => W.next
  | _ => arrayP.full arrayP.afterLatest

/-- **The bounds are safe**: no id that must not be removed is before `maybe_needed`, apart from ids
before `oldestXid`, which no row has. -/
structure Safe : Prop where
  near : ∀ kind, FullTransactionIdIsValid (vis.testFor kind).definitely_needed = true →
    W.base ≤ (vis.testFor kind).definitely_needed + 1000003
  le_next : ∀ kind, (vis.testFor kind).definitely_needed ≤ W.next
  le_limit : ∀ kind, (vis.testFor kind).maybe_needed ≤ limit arrayP W kind
  needed : ∀ kind, ∀ i ∈ arrayP.needed kind, TransactionIdIsValid i = true →
    (vis.testFor kind).maybe_needed ≤ max (arrayP.full i) (arrayP.full arrayP.oldestXid)

end GlobalVis

/-- **Shared memory at a later time**: an id that must not be removed is not before one that was
needed earlier, or was not yet over, or is before `oldestXid`. -/
structure ProcArray.Advances (arrayP : ProcArray) (W : IdWindow) (arrayP' : ProcArray)
    (W' : IdWindow) : Prop where
  next : W.next ≤ W'.next
  latest : arrayP.full arrayP.afterLatest ≤ arrayP'.full arrayP'.afterLatest
  needed : ∀ kind, ∀ i' ∈ arrayP'.needed kind, TransactionIdIsValid i' = true →
    GlobalVis.limit arrayP W kind ≤ max (arrayP'.full i') (arrayP'.full arrayP'.oldestXid) ∨
      ∃ i ∈ arrayP.needed kind, TransactionIdIsValid i = true ∧
        max (arrayP.full i) (arrayP.full arrayP.oldestXid) ≤
          max (arrayP'.full i') (arrayP'.full arrayP'.oldestXid)

namespace GlobalVis

variable {vis : GlobalVis} {arrayP arrayP' : ProcArray} {W W' : IdWindow}
  {age : ℕ} {kind : GlobalVisHorizonKind}

/-- A new backend. -/
theorem safe_fresh : fresh.Safe arrayP W where
  near kind h := by
    cases kind <;> cases h
  le_next kind := by
    cases kind <;> exact Nat.zero_le _
  le_limit kind := by
    cases kind <;> exact Nat.zero_le _
  needed kind i _ _ := by
    cases kind <;> exact Nat.zero_le _

/-- Later, the bounds are still safe, if the snapshot that is held keeps the ids in use close. -/
theorem Safe.advance (h : vis.Safe arrayP W) (hadv : arrayP.Advances W arrayP' W')
    (hheld : ∀ kind, FullTransactionIdIsValid (vis.testFor kind).definitely_needed = true →
      W'.base ≤ (vis.testFor kind).definitely_needed + 1000003) : vis.Safe arrayP' W' where
  near := hheld
  le_next kind := (h.le_next kind).trans hadv.next
  le_limit kind := by
    refine (h.le_limit kind).trans ?_
    cases kind with
    | VISHORIZON_TEMP => exact hadv.next
    | _ => exact hadv.latest
  needed kind i' hi' hvalid := by
    rcases hadv.needed kind i' hi' hvalid with hlimit | ⟨i, hi, hvalid, hle⟩
    · exact (h.le_limit kind).trans hlimit
    · exact (h.needed kind i hi hvalid).trans hle

/-- The bounds that `GetSnapshotData` installs. -/
theorem snapshot_testFor (hkind : kind ≠ VISHORIZON_TEMP) :
    (snapshotGlobalVis arrayP age vis).testFor kind = (vis.testFor kind).install
        (arrayP.full (arrayP.snapshotHorizon age kind)) (arrayP.full arrayP.oldestXid) := by
  cases kind with
  | VISHORIZON_TEMP => exact absurd rfl hkind
  | _ => rfl

/-- The bounds that `GlobalVisUpdate` installs. -/
theorem update_testFor (hkind : kind ≠ VISHORIZON_TEMP) :
    (GlobalVisUpdate arrayP age vis).testFor kind =
      (vis.testFor kind).apply arrayP.latestCompletedXid (arrayP.computedHorizon age kind) := by
  cases kind with
  | VISHORIZON_TEMP => exact absurd rfl hkind
  | _ => rfl

/-- The bounds for temporary relations are equal to each other. They are the own transaction, or
without one they are close to the latest completed id. -/
theorem temp_testFor (hvalid : arrayP.Valid W) {v : GlobalVis}
    (hv : v = snapshotGlobalVis arrayP age vis ∨ v = GlobalVisUpdate arrayP age vis) :
    ∃ t, v.testFor VISHORIZON_TEMP = ⟨t, t⟩ ∧ W.base ≤ t ∧ t ≤ W.next ∧
      (TransactionIdIsValid arrayP.MyProc.xid = true → t = arrayP.full arrayP.MyProc.xid) := by
  obtain ⟨a, ha, -⟩ := hvalid.afterLatest
  rcases hvalid.myProc with hmine | ⟨x, hx⟩
  · -- no transaction of its own
    have hinval : ¬ TransactionIdIsValid arrayP.MyProc.xid = true := by
      rw [hmine]
      decide
    have hnorm : ¬ TransactionIdIsNormal arrayP.MyProc.xid = true := by
      rw [hmine]
      decide
    rcases hv with rfl | rfl
    · obtain ⟨hlo, hhi⟩ := hvalid.fullAdvance
      refine ⟨FullTransactionIdAdvance arrayP.latestCompletedXid, ?_, hlo, hhi,
        fun h => absurd h hinval⟩
      simp only [testFor, snapshotGlobalVis, if_neg hnorm]
    · have hfull := hvalid.full_eq ha
      refine ⟨arrayP.full arrayP.afterLatest, ?_, ?_, ?_, fun h => absurd h hinval⟩
      · simp only [testFor, GlobalVisUpdate, GlobalVisUpdateApply, ProcArray.ComputeXidHorizons,
          if_neg hinval, ProcArray.full]
      · rw [hfull]
        exact ha.lo
      · rw [hfull]
        exact ha.hi
  · have hfull := hvalid.full_eq hx
    have hnorm : TransactionIdIsNormal arrayP.MyProc.xid = true := decide_eq_true hx.id.normal
    refine ⟨arrayP.full arrayP.MyProc.xid, ?_, ?_, ?_, fun _ => rfl⟩
    · rcases hv with rfl | rfl
      · simp only [testFor, snapshotGlobalVis, if_pos hnorm, ProcArray.full]
      · simp only [testFor, GlobalVisUpdate, GlobalVisUpdateApply, ProcArray.ComputeXidHorizons,
          if_pos hx.id.valid, ProcArray.full]
    · rw [hfull]
      exact hx.lo
    · rw [hfull]
      exact hx.hi

/-- Bounds that are safe for all kinds but temporary relations are safe, if they were installed by
one of the two calls. -/
theorem safe_of_temp (hvalid : arrayP.Valid W) {v : GlobalVis}
    (hv : v = snapshotGlobalVis arrayP age vis ∨ v = GlobalVisUpdate arrayP age vis)
    (hdef : ∀ kind, kind ≠ VISHORIZON_TEMP →
      W.base ≤ (v.testFor kind).definitely_needed + 1000003 ∧
        (v.testFor kind).definitely_needed ≤ W.next) (hmaybe : ∀ kind, kind ≠ VISHORIZON_TEMP →
      (v.testFor kind).maybe_needed ≤ arrayP.full arrayP.afterLatest ∧
        ∀ i ∈ arrayP.needed kind, TransactionIdIsValid i = true →
          (v.testFor kind).maybe_needed ≤ max (arrayP.full i) (arrayP.full arrayP.oldestXid)) :
    v.Safe arrayP W := by
  obtain ⟨t, ht, hlo, hhi, hmine⟩ := temp_testFor hvalid hv
  refine ⟨?_, ?_, ?_, ?_⟩
  · intro kind _
    by_cases hkind : kind = VISHORIZON_TEMP
    · rw [hkind, ht]
      exact hlo.trans (Nat.le_add_right _ _)
    · exact (hdef kind hkind).1
  · intro kind
    by_cases hkind : kind = VISHORIZON_TEMP
    · rw [hkind, ht]
      exact hhi
    · exact (hdef kind hkind).2
  · intro kind
    cases kind with
    | VISHORIZON_TEMP =>
      rw [ht]
      exact hhi
    | _ => exact (hmaybe _ (by simp)).1
  · intro kind i hi hivalid
    by_cases hkind : kind = VISHORIZON_TEMP
    · rw [hkind] at hi ⊢
      rw [List.mem_singleton.mp hi] at hivalid ⊢
      rw [ht, hmine hivalid]
      exact le_max_left _ _
    · exact (hmaybe kind hkind).2 i hi hivalid

/-- A test leaves the bounds as they are or updates them. -/
theorem test_cases (arrayP : ProcArray) (age : ℕ) (vis : GlobalVis)
    (kind : GlobalVisHorizonKind) (fxid : ℕ) :
    let v := (GlobalVisTestIsRemovableFullXid arrayP age vis kind fxid).2
    (v = vis ∨ v = GlobalVisUpdate arrayP age vis) ∧
      ((GlobalVisTestIsRemovableFullXid arrayP age vis kind fxid).1 = true →
        fxid < (v.testFor kind).maybe_needed) := by
  simp only [GlobalVisTestIsRemovableFullXid]
  by_cases hmaybe : fxid < (vis.testFor kind).maybe_needed
  · simp only [if_pos hmaybe]
    exact ⟨.inl trivial, fun _ => hmaybe⟩
  · by_cases hdef : fxid ≥ (vis.testFor kind).definitely_needed
    · simp only [if_neg hmaybe, if_pos hdef]
      exact ⟨.inl trivial, nofun⟩
    · by_cases hupd : GlobalVisTestShouldUpdate vis kind = true
      · simp only [if_neg hmaybe, if_neg hdef, if_pos hupd]
        exact ⟨.inr trivial, of_decide_eq_true⟩
      · simp only [if_neg hmaybe, if_neg hdef, if_neg hupd]
        exact ⟨.inl trivial, nofun⟩

section Room

variable (h : vis.Safe arrayP W) (hvalid : arrayP.Valid W) (hage : age ≤ 1000000)
  (hfits : arrayP.DeferFits age)

include h hvalid hage hfits

/-- **A snapshot installs safe bounds**, if there is room. -/
theorem Safe.snapshot : (snapshotGlobalVis arrayP age vis).Safe arrayP W := by
  obtain ⟨a, ha, hlat⟩ := hvalid.afterLatest
  obtain ⟨o, ho, hole⟩ := hvalid.oldest
  have hoa : arrayP.full arrayP.oldestXid ≤ arrayP.full arrayP.afterLatest := by
    rw [hvalid.full_eq ho, hvalid.full_eq ha]
    omega
  refine safe_of_temp hvalid (.inl rfl) ?_ ?_
  · intro kind hkind
    rw [snapshot_testFor hkind]
    exact (hvalid.snapshotHorizon hage kind).newer_near hvalid hfits.snapshot (h.le_next kind)
  · intro kind hkind
    have hlimit : (vis.testFor kind).maybe_needed ≤ arrayP.full arrayP.afterLatest := by
      have hle := h.le_limit kind
      cases kind with
      | VISHORIZON_TEMP => exact absurd rfl hkind
      | _ => exact hle
    rw [snapshot_testFor hkind]
    simp only [GlobalVisState.install, FullTransactionIdNewer]
    repeat' split
    · exact ⟨hoa, fun i hi hivalid => le_max_right _ _⟩
    · exact ⟨hlimit, h.needed kind⟩
    · exact ⟨hlimit, h.needed kind⟩
    · exact ⟨hoa, fun i hi hivalid => le_max_right _ _⟩

/-- **An update installs safe bounds**, if there is room. -/
theorem Safe.update : (GlobalVisUpdate arrayP age vis).Safe arrayP W := by
  have hroom : ∀ kind, arrayP.recoveryInProgress = false →
      age + 3 ≤ arrayP.full (arrayP.loopHorizon kind) := by
    intro kind
    cases kind with
    | VISHORIZON_SHARED => exact hfits.shared
    | _ => exact hfits.data
  refine safe_of_temp hvalid (.inr rfl) ?_ ?_
  · intro kind hkind
    rw [update_testFor hkind]
    exact (hvalid.computedHorizon hage hkind).newer_near hvalid (hroom kind) (h.le_next kind)
  · intro kind hkind
    obtain ⟨x, hx, hxa, hneed⟩ := hvalid.loopHorizon hkind
    obtain ⟨hle, -, -⟩ := (hvalid.computedHorizon hage hkind).full_le hvalid (hroom kind)
    rw [hvalid.full_eq hx] at hle
    rw [update_testFor hkind]
    exact ⟨hle.trans hxa,
      fun i hi hivalid => (hle.trans (hneed i hi hivalid)).trans (le_max_left _ _)⟩

/-- A test leaves safe bounds behind, if there is room. -/
theorem Safe.test (kind : GlobalVisHorizonKind) (fxid : ℕ) :
    (GlobalVisTestIsRemovableFullXid arrayP age vis kind fxid).2.Safe arrayP W := by
  obtain ⟨hcases, -⟩ := test_cases arrayP age vis kind fxid
  rcases hcases with hv | hv
  · rw [hv]
    exact h
  · rw [hv]
    exact h.update hvalid hage hfits

end Room

variable (hvalid : arrayP.Valid W) (hage : age ≤ 1000000)
  (hle : ∀ kind, (vis.testFor kind).definitely_needed ≤ W.next)

include hvalid hage hle

end GlobalVis

/-! ### Whole runs -/

/-- **The bounds that the calls of a backend leave behind**, while shared memory changes between
them, in a run in which there is always room for moving the horizons back. -/
inductive BoundsReached (vacuum_defer_cleanup_age : ℕ) : ProcArray → IdWindow → GlobalVis → Prop
  /-- A new backend. -/
  | start {arrayP W} : arrayP.Valid W → BoundsReached vacuum_defer_cleanup_age arrayP W .fresh
  /-- `GetSnapshotData`. -/
  | snapshot {arrayP W vis} : BoundsReached vacuum_defer_cleanup_age arrayP W vis →
      arrayP.DeferFits vacuum_defer_cleanup_age →
      BoundsReached vacuum_defer_cleanup_age arrayP W
        (snapshotGlobalVis arrayP vacuum_defer_cleanup_age vis)
  /-- `ComputeXidHorizons`. -/
  | update {arrayP W vis} : BoundsReached vacuum_defer_cleanup_age arrayP W vis →
      arrayP.DeferFits vacuum_defer_cleanup_age →
      BoundsReached vacuum_defer_cleanup_age arrayP W
        (GlobalVisUpdate arrayP vacuum_defer_cleanup_age vis)
  /-- `GlobalVisTestIsRemovableXid`. -/
  | test {arrayP W vis} (kind : GlobalVisHorizonKind) (xid : ℕ) :
      BoundsReached vacuum_defer_cleanup_age arrayP W vis →
      arrayP.DeferFits vacuum_defer_cleanup_age →
      BoundsReached vacuum_defer_cleanup_age arrayP W
        (GlobalVisTestIsRemovableXid arrayP vacuum_defer_cleanup_age vis kind xid).2
  /-- Shared memory changes. -/
  | advance {arrayP W vis arrayP' W'} : BoundsReached vacuum_defer_cleanup_age arrayP W vis →
      arrayP'.Valid W' → arrayP.Advances W arrayP' W' →
      (∀ kind, FullTransactionIdIsValid (vis.testFor kind).definitely_needed = true →
        W'.base ≤ (vis.testFor kind).definitely_needed + 1000003) →
      BoundsReached vacuum_defer_cleanup_age arrayP' W' vis

/-- **Along a run the bounds are safe.** -/
theorem BoundsReached.safe {age : ℕ} (hage : age ≤ 1000000) {arrayP : ProcArray} {W : IdWindow}
    {vis : GlobalVis} (h : BoundsReached age arrayP W vis) :
    arrayP.Valid W ∧ vis.Safe arrayP W := by
  induction h with
  | start hvalid => exact ⟨hvalid, GlobalVis.safe_fresh⟩
  | snapshot _ hfits ih => exact ⟨ih.1, ih.2.snapshot ih.1 hage hfits⟩
  | update _ hfits ih => exact ⟨ih.1, ih.2.update ih.1 hage hfits⟩
  | test kind xid _ hfits ih => exact ⟨ih.1, ih.2.test ih.1 hage hfits kind _⟩
  | advance _ hvalid hadv hheld ih => exact ⟨hvalid, ih.2.advance hadv hheld⟩

/-- Two backends of one database. The calling one holds a snapshot that needs the transaction of the
other one. -/
def twoBackends (latestCompletedXid xid xmin : ℕ) : ProcArray where
  procs := [⟨InvalidTransactionId, xid, 1, false, false, [], false⟩,
      ⟨xid, xmin, 1, false, false, [], false⟩]
  mypgxactoff := 0
  MyDatabaseId := 1
  latestCompletedXid := latestCompletedXid
  oldestXid := 3
  replication_slot_xmin := InvalidTransactionId
  replication_slot_catalog_xmin := InvalidTransactionId
  recoveryInProgress := false
  knownAssignedXids := []
  lastOverflowedXid := InvalidTransactionId

/-- A backend without a snapshot, while a transaction is running in another database, and further
backends of its own database with the given ids to be kept. -/
def besideOtherDatabase (xmins : List ℕ) : ProcArray :=
  { twoBackends 100 0 0 with
    procs := [⟨InvalidTransactionId, InvalidTransactionId, 1, false, false, [], false⟩,
      ⟨50, InvalidTransactionId, 2, false, false, [], false⟩] ++
        xmins.map fun xmin => ⟨InvalidTransactionId, xmin, 1, false, false, [], false⟩ }

/-- **Needed ids can go back**, also if cleanup is not deferred. The transaction of another database
does not count for the bounds of a backend, but it is in the snapshot of a backend that comes to the
database afterwards. So the bounds that are left behind pass an id that this backend needs. -/
theorem needed_goes_back :
    (besideOtherDatabase []).DeferFits 0 ∧ (besideOtherDatabase [50]).DeferFits 0 ∧
      (buildSnapshot (besideOtherDatabase []) 0).xmin = 50 ∧
      (besideOtherDatabase [50]).Protected VISHORIZON_DATA 60 ∧
      (GlobalVisTestIsRemovableXid (besideOtherDatabase [50]) 0
        (GlobalVisUpdate (besideOtherDatabase []) 0 .fresh) VISHORIZON_DATA 60).1 = true :=
  ⟨⟨by decide, fun _ => by decide, fun _ => by decide⟩,
    ⟨by decide, fun _ => by decide, fun _ => by decide⟩, by decide,
    ⟨50, by decide, by decide, by decide⟩, by decide⟩

end FdPostgres
