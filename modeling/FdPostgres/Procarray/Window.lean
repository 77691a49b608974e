import FdPostgres.Procarray.Horizons

/-!
# The Ids in Shared Memory

The ids that backends, replication slots and a standby keep in shared memory are in use: they lie
between the oldest id and the next one to be assigned, less than half of the circle apart. So the
comparisons of ids find the oldest one, and a 64-bit id can be had back from its low word.

* `IdWindow`, `ProcArray.Valid`: the ids in shared memory are close to each other.
* `ProcArray.Valid.full_eq`: the 64-bit id of an id in use.
* `ProcArray.oldestOf_spec`, `ProcArray.foldl_horizonProc`: the loop of `ComputeXidHorizons`.
* `ProcArray.Valid.snapshot_xmin`: the loop of `GetSnapshotData`.
-/

namespace FdPostgres

open List

/-! ### Ids in use -/

def MaxTransactionId : ℕ := 2 ^ 32 - 1

/-- **The ids in use**, from the oldest one to the next one to be assigned. No id is assigned from
`xidStopLimit` on. -/
structure IdWindow where
  base : ℕ
  next : ℕ
  stop : next + 3000000 ≤ base + MaxTransactionId / 2
  normal : FirstNormalTransactionId ≤ next % 2 ^ 32
  next_lt : next < 2 ^ 64

namespace IdWindow

variable (W : IdWindow)

/-- An id in use. -/
structure Holds (xid x : ℕ) : Prop where
  id : IdOf xid x
  lo : W.base ≤ x
  hi : x ≤ W.next

/-- An id in use, or none. -/
def MayHold (xid : ℕ) : Prop := xid = InvalidTransactionId ∨ ∃ x, W.Holds xid x

/-- An id in use that was moved back, maybe below zero. -/
structure Near (xid : ℕ) (y : ℤ) : Prop where
  id : IdOf xid y
  lo : (W.base : ℤ) - 1000003 ≤ y
  hi : y ≤ W.next

variable {W}

/-- The ids in use are close to each other. -/
theorem stop_lt (W : IdWindow) : W.next + 3000000 < W.base + 2 ^ 31 := by
  have hstop := W.stop
  rw [MaxTransactionId] at hstop
  omega

/-- An id that was not moved back. -/
theorem Holds.near {xid x : ℕ} (h : W.Holds xid x) : W.Near xid x where
  id := h.id
  lo := by
    have hlo := h.lo
    omega
  hi := by
    have hhi := h.hi
    omega

/-- The older one of two ids. -/
theorem Near.older {a b : ℕ} {x y : ℤ} (ha : W.Near a x) (hb : W.Near b y) :
    W.Near (TransactionIdOlder a b) (min x y) := by
  have halo := ha.lo
  have hahi := ha.hi
  have hblo := hb.lo
  have hbhi := hb.hi
  have hstop := W.stop_lt
  exact ⟨ha.id.older hb.id (by omega) (by omega), by omega, by omega⟩

/-- The older one of two ids in use. -/
theorem Holds.older {a b x y : ℕ} (ha : W.Holds a x) (hb : W.Holds b y) :
    W.Holds (TransactionIdOlder a b) (min x y) := by
  have hid := (ha.near.older hb.near).id
  rw [← Nat.cast_min] at hid
  have halo := ha.lo
  have hahi := ha.hi
  have hblo := hb.lo
  exact ⟨hid, by omega, by omega⟩

/-- An id in use is the low word of one number only. -/
theorem Holds.unique {a x y : ℕ} (h : W.Holds a x) (h' : W.Holds a y) : x = y := by
  have hword := h.id.word
  have hword' := h'.id.word
  have hlo := h.lo
  have hhi := h.hi
  have hlo' := h'.lo
  have hhi' := h'.hi
  have hstop := W.stop_lt
  omega

theorem not_holds_invalid {x : ℕ} : ¬ W.Holds InvalidTransactionId x :=
  fun h => nomatch h.id.valid

/-- The older one of an id and maybe another one. -/
theorem Holds.older_mayHold {a b x : ℕ} (ha : W.Holds a x) (hb : W.MayHold b) :
    ∃ z, W.Holds (TransactionIdOlder a b) z ∧ z ≤ x ∧ ∀ y, W.Holds b y → z ≤ y := by
  rcases hb with rfl | ⟨y, hy⟩
  · rw [TransactionIdOlder_invalid_right]
    exact ⟨x, ha, le_rfl, fun y hy => absurd hy not_holds_invalid⟩
  · refine ⟨min x y, ha.older hy, min_le_left _ _, ?_⟩
    intro z hz
    rw [hy.unique hz]
    exact min_le_right _ _

/-- The older one of two ids, either of which may be missing. -/
theorem MayHold.older {a b : ℕ} (ha : W.MayHold a) (hb : W.MayHold b) :
    W.MayHold (TransactionIdOlder a b) ∧ ∀ z, (∀ x, W.Holds (TransactionIdOlder a b) x → z ≤ x) →
      (∀ x, W.Holds a x → z ≤ x) ∧ ∀ y, W.Holds b y → z ≤ y := by
  rcases ha with rfl | ⟨x, hx⟩
  · exact ⟨hb, fun z hz => ⟨fun x hx => absurd hx not_holds_invalid, hz⟩⟩
  · obtain ⟨m, hm, hmx, hmy⟩ := hx.older_mayHold hb
    refine ⟨.inr ⟨m, hm⟩, ?_⟩
    intro z hz
    have hle := hz m hm
    refine ⟨?_, fun y hy => hle.trans (hmy y hy)⟩
    intro x' hx'
    rw [hx'.unique hx]
    exact hle.trans hmx

end IdWindow

namespace ProcArray

variable (arrayP : ProcArray) (W : IdWindow)

/-- **Shared memory holds ids in use**: those of the backends, of the replication slots and of the
primary. -/
structure Valid : Prop where
  latest_lt : arrayP.latestCompletedXid < W.next
  base_le : W.base ≤ arrayP.latestCompletedXid + 1
  oldest : ∃ x, W.Holds arrayP.oldestXid x ∧ x ≤ arrayP.latestCompletedXid + 1
  procs : ∀ proc ∈ arrayP.procs, W.MayHold proc.xid ∧ W.MayHold proc.xmin
  slot : W.MayHold arrayP.replication_slot_xmin
  slotCatalog : W.MayHold arrayP.replication_slot_catalog_xmin
  known : ∀ xid ∈ arrayP.knownAssignedXids, ∃ x, W.Holds xid x

/-- The 64-bit id of an id in use. -/
def full (xid : ℕ) : ℕ := FullXidRelativeTo arrayP.latestCompletedXid xid

variable {arrayP W}

namespace Valid

variable (h : arrayP.Valid W)

include h

/-- The 64-bit id of an id that was moved back. -/
theorem full_near {xid : ℕ} {y : ℤ} (hy : W.Near xid y) : arrayP.full xid = (y % 2 ^ 64).toNat := by
  have hlat := h.latest_lt
  have hbase := h.base_le
  have hlo := hy.lo
  have hhi := hy.hi
  have hstop := W.stop_lt
  exact hy.id.relativeTo (by omega) (by omega)

/-- The 64-bit id of an id that was not moved back below zero. -/
theorem full_near_of_nonneg {xid : ℕ} {y : ℤ} (hy : W.Near xid y)
    (hnn : 0 ≤ y) : (arrayP.full xid : ℤ) = y := by
  have hhi := hy.hi
  have hlt := W.next_lt
  rw [h.full_near hy]
  omega

theorem full_eq {xid x : ℕ} (hx : W.Holds xid x) : arrayP.full xid = x := by
  have hfull := h.full_near_of_nonneg hx.near (Int.natCast_nonneg x)
  omega

/-- The first id that is not completed. -/
theorem afterLatest : ∃ x, W.Holds arrayP.afterLatest x ∧ arrayP.latestCompletedXid < x := by
  obtain ⟨x, hx, hlt, -, hmin⟩ := IdOf.advance arrayP.latestCompletedXid
  have hbase := h.base_le
  exact ⟨x, ⟨hx, by omega, hmin _ h.latest_lt W.normal⟩, hlt⟩

/-- The own transaction. -/
theorem myProc : W.MayHold arrayP.MyProc.xid := by
  rw [MyProc]
  cases hproc : arrayP.procs[arrayP.mypgxactoff]? with
  | none => exact .inl rfl
  | some proc => exact (h.procs proc (mem_of_getElem? hproc)).1

end Valid

/-! ### The loops -/

/-- The oldest id of some backends. -/
def oldestOf (counts : PGPROC → Bool) (xid : ℕ) (procs : List PGPROC) : ℕ :=
  procs.foldl (fun a proc =>
    if counts proc then TransactionIdOlder a (TransactionIdOlder proc.xmin proc.xid) else a) xid

/-- **The oldest id of some backends is a lower bound.** -/
theorem oldestOf_spec {counts : PGPROC → Bool} {procs : List PGPROC}
    (hprocs : ∀ proc ∈ procs, W.MayHold proc.xid ∧ W.MayHold proc.xmin) :
    ∀ xid x : ℕ, W.Holds xid x → ∃ y, W.Holds (oldestOf counts xid procs) y ∧ y ≤ x ∧
      ∀ proc ∈ procs, counts proc = true →
        (∀ z, W.Holds proc.xid z → y ≤ z) ∧ ∀ z, W.Holds proc.xmin z → y ≤ z := by
  induction procs with
  | nil =>
    intro xid x hx
    exact ⟨x, hx, le_rfl, fun proc hproc => nomatch hproc⟩
  | cons proc procs ih =>
    intro xid x hx
    obtain ⟨hxid, hxmin⟩ := hprocs proc mem_cons_self
    have ih := ih fun proc hproc => hprocs proc (mem_cons_of_mem _ hproc)
    obtain ⟨hmay, hlower⟩ := hxmin.older hxid
    rw [oldestOf, foldl_cons]
    by_cases hcnts : counts proc = true
    · obtain ⟨m, hm, hmx, hmy⟩ := hx.older_mayHold hmay
      rw [if_pos hcnts]
      obtain ⟨y, hy, hle, hprocs⟩ := ih _ m hm
      refine ⟨y, hy, hle.trans hmx, ?_⟩
      intro proc' hproc' hcnts'
      rcases mem_cons.mp hproc' with rfl | hproc'
      · obtain ⟨hleft, hright⟩ := hlower y fun z hz => hle.trans (hmy z hz)
        exact ⟨hright, hleft⟩
      · exact hprocs proc' hproc' hcnts'
    · rw [if_neg hcnts]
      obtain ⟨y, hy, hle, hprocs⟩ := ih _ x hx
      refine ⟨y, hy, hle, ?_⟩
      intro proc' hproc' hcnts'
      rcases mem_cons.mp hproc' with rfl | hproc'
      · exact absurd hcnts' hcnts
      · exact hprocs proc' hproc' hcnts'

/-- The backends that count for shared relations. -/
def countsShared (proc : PGPROC) : Bool := !(proc.inVacuum || proc.inLogicalDecoding)

/-- The backends that count for the other relations of the database. -/
def countsData (arrayP : ProcArray) (proc : PGPROC) : Bool :=
  countsShared proc && arrayP.sameDatabase proc

/-- What one backend does to the horizons. -/
theorem horizonProc_eq (arrayP : ProcArray) (h : HorizonLoop) (proc : PGPROC) :
    (arrayP.horizonProc h proc).shared_oldest_nonremovable =
        (if countsShared proc then TransactionIdOlder h.shared_oldest_nonremovable
          (TransactionIdOlder proc.xmin proc.xid) else h.shared_oldest_nonremovable) ∧
      (arrayP.horizonProc h proc).data_oldest_nonremovable =
        (if arrayP.countsData proc then TransactionIdOlder h.data_oldest_nonremovable
          (TransactionIdOlder proc.xmin proc.xid) else h.data_oldest_nonremovable) := by
  by_cases hvalid : TransactionIdIsValid (TransactionIdOlder proc.xmin proc.xid) = true
  · cases hskip : (proc.inVacuum || proc.inLogicalDecoding) <;>
      cases hdatabase : arrayP.sameDatabase proc <;>
      simp [horizonProc, countsData, countsShared, hvalid, hskip, hdatabase]
  · have hinval : TransactionIdOlder proc.xmin proc.xid = InvalidTransactionId := by
      simpa [TransactionIdIsValid] using hvalid
    simp [horizonProc, hinval]

/-- The horizons of the loop are oldest ids of backends. -/
theorem foldl_horizonProc (arrayP : ProcArray) (procs : List PGPROC) : ∀ h : HorizonLoop,
    (procs.foldl arrayP.horizonProc h).shared_oldest_nonremovable =
        oldestOf countsShared h.shared_oldest_nonremovable procs ∧
      (procs.foldl arrayP.horizonProc h).data_oldest_nonremovable =
        oldestOf arrayP.countsData h.data_oldest_nonremovable procs := by
  induction procs with
  | nil => exact fun h => ⟨rfl, rfl⟩
  | cons proc procs ih =>
    intro h
    obtain ⟨hshar, hdata⟩ := arrayP.horizonProc_eq h proc
    rw [foldl_cons, (ih _).1, (ih _).2, hshar, hdata]
    exact ⟨rfl, rfl⟩

/-- A step of the loop of a snapshot. -/
theorem snapshotProc_xmin {mypgxactoff xmax : ℕ} {l : SnapshotLoop} {proc : PGPROC × ℕ}
    (hxmin : ∃ y, W.Holds l.xmin y) (hproc : W.MayHold proc.1.xid) :
    ∃ y, W.Holds (snapshotProc mypgxactoff xmax l proc).xmin y := by
  rcases hproc with hproc | hproc
  · rw [snapshotProc, if_pos hproc]
    exact hxmin
  · have hkeep : (snapshotProc mypgxactoff xmax l proc).xmin = l.xmin ∨
        (snapshotProc mypgxactoff xmax l proc).xmin = proc.1.xid := by
      simp only [snapshotProc]
      repeat' split
      all_goals first | exact .inl rfl | exact .inr rfl
    rcases hkeep with hkeep | hkeep
    · rw [hkeep]
      exact hxmin
    · rw [hkeep]
      exact hproc

/-- The `xmin` of the ids of the primary. -/
theorem knownAssigned_xmin {xmax : ℕ} : ∀ (known xarray : List ℕ) (xmin : ℕ),
    (∀ xid ∈ known, ∃ x, W.Holds xid x) → (∃ y, W.Holds xmin y) →
    ∃ y, W.Holds (KnownAssignedXidsGetAndSetXmin xmax known xarray xmin).2 y
  | [], _, _, _, hxmin => hxmin
  | knownXid :: rest, xarray, xmin, hknown, hxmin => by
      rw [KnownAssignedXidsGetAndSetXmin]
      have hnext : ∃ y, W.Holds (if xarray.length = 0 && TransactionIdPrecedes knownXid xmin then
          knownXid else xmin) y := by
        split
        · exact hknown knownXid mem_cons_self
        · exact hxmin
      split
      · exact hnext
      · exact knownAssigned_xmin rest _ _
          (fun xid hxid => hknown xid (mem_cons_of_mem _ hxid)) hnext

/-- **The `xmin` of a snapshot is an id in use.** -/
theorem Valid.snapshot_xmin (h : arrayP.Valid W) (curcid : ℕ) :
    ∃ y, W.Holds (buildSnapshot arrayP curcid).xmin y := by
  obtain ⟨x, hx, -⟩ := h.afterLatest
  have hinit : ∃ y, W.Holds (initialXmin arrayP) y := by
    rw [initialXmin]
    split_ifs with hmine
    · rcases h.myProc with hxid | hxid
      · rw [hxid] at hmine
        exact absurd hmine (by simp [TransactionIdIsNormal, InvalidTransactionId,
          FirstNormalTransactionId])
      · exact hxid
    · exact ⟨x, hx⟩
  rw [buildSnapshot]
  by_cases hrec : arrayP.recoveryInProgress = true
  · rw [hrec]
    exact knownAssigned_xmin _ _ _ h.known hinit
  · rw [Bool.not_eq_true] at hrec
    rw [hrec]
    have hfold : ∀ (procs : List (PGPROC × ℕ)) (l : SnapshotLoop), (∃ y, W.Holds l.xmin y) →
        (∀ proc ∈ procs, W.MayHold proc.1.xid) → ∃ y, W.Holds (procs.foldl
          (snapshotProc arrayP.mypgxactoff arrayP.afterLatest) l).xmin y := by
      intro procs
      induction procs with
      | nil => exact fun l hl _ => hl
      | cons proc procs ih =>
        intro l hl hprocs
        exact ih _ (snapshotProc_xmin hl (hprocs proc mem_cons_self))
          fun proc hproc => hprocs proc (mem_cons_of_mem _ hproc)
    refine hfold _ _ hinit ?_
    intro proc hproc
    exact (h.procs proc.1 (fst_mem_of_mem_zipIdx hproc)).1

end ProcArray

end FdPostgres
