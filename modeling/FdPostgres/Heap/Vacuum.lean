import FdPostgres.Heap.Mvcc

/-!
# Vacuum Removes only What No Snapshot Sees

`HeapTupleSatisfiesVacuum` asks which transactions are running now, `HeapTupleSatisfiesMVCC` asks a
snapshot. A tuple that the first calls dead, for a horizon that is not after the snapshot, is not
seen by the second one, at that moment or later.

* `InUse`: the transaction ids in use lie within half of the circle.
* `DeletedFor`: the deleter of a tuple is over for a snapshot.
* `mvcc_of_deleted`, `DeadInserter.mvcc`: the two ways to be dead.
* `vacuum_dead_unseen`: the result, with the shortcut `HeapTupleIsSurelyDead`.
* `movedOff_dead_seen`: the exception, a tuple moved off by an old-style vacuum.

Neither the truth of the hints nor a bound of the horizon by the running transactions is needed.
-/

namespace FdPostgres

open Bool

/-! ### Horizons -/

/-- A transaction id in use: they all lie within half of the circle that starts at `base`. -/
def InUse (base xid : ℕ) : Prop :=
  TransactionIdIsNormal xid = true ∧ Word32.sub xid base < 2 ^ 31

/-- The order of the transaction ids in use. -/
theorem InUse.precedes_iff {base id1 id2 : ℕ} (h1 : InUse base id1) (h2 : InUse base id2) :
    TransactionIdPrecedes id1 id2 = true ↔ Word32.sub id1 base < Word32.sub id2 base := by
  rw [TransactionIdPrecedes, h1.1, h2.1]
  exact Word32.precedes_iff_of_window h1.2 h2.2

/-- **A transaction before the horizon** is before each snapshot that is not before it. -/
theorem precedes_snapshot {base xid OldestXmin xmin : ℕ}
    (hxid : TransactionIdIsNormal xid = true → InUse base xid) (hold : InUse base OldestXmin)
    (hxmin : InUse base xmin) (hle : TransactionIdPrecedes xmin OldestXmin = false)
    (h : TransactionIdPrecedes xid OldestXmin = true) : TransactionIdPrecedes xid xmin = true := by
  cases hnorm : TransactionIdIsNormal xid with
  | true =>
    have huse := hxid hnorm
    rw [huse.precedes_iff hold] at h
    rw [huse.precedes_iff hxmin]
    by_contra hlt
    have hprec := (hxmin.precedes_iff hold).mpr (by omega)
    rw [hle] at hprec
    exact Bool.false_ne_true hprec
  | false =>
    have hlt := hxmin.1
    rw [TransactionIdIsNormal, decide_eq_false_iff_not] at hnorm
    rw [TransactionIdIsNormal, decide_eq_true_eq] at hlt
    have hspec : TransactionIdIsNormal xid = false := decide_eq_false hnorm
    rw [TransactionIdPrecedes, hspec, Bool.not_false, Bool.true_or, if_pos rfl,
      decide_eq_true_eq]
    omega

/-! ### A tuple whose deleter is over -/

/-- **The deleter of a tuple is over for a snapshot**: it is marked to have committed, or was found
to have. -/
structure DeletedFor (b : XactView) (snapshot : SnapshotData) (tuple : HeapTupleHeader) :
    Prop where
  valid : has tuple.t_infomask HEAP_XMAX_INVALID = false
  update : HEAP_XMAX_IS_LOCKED_ONLY tuple.t_infomask = false
  past : XidInMVCCSnapshot b (updaterOf b tuple) snapshot = false
  committed : (has tuple.t_infomask HEAP_XMAX_IS_MULTI = false ∧
      has tuple.t_infomask HEAP_XMAX_COMMITTED = true) ∨
    (TransactionIdIsCurrentTransactionId b (updaterOf b tuple) = false ∧
      TransactionIdDidCommit b (updaterOf b tuple) = true)

/-- The inserter is not an own transaction that would be asked about its commands. -/
def InserterOver (b : XactView) (tuple : HeapTupleHeader) : Prop :=
  has tuple.t_infomask HEAP_XMIN_COMMITTED = true ∨ has tuple.t_infomask HEAP_MOVED_OFF = true ∨
    has tuple.t_infomask HEAP_MOVED_IN = true ∨
    TransactionIdIsCurrentTransactionId b tuple.t_xmin = false

section Deleted

variable {b b' : XactView} {snapshot : SnapshotData} {tuple tuple' : HeapTupleHeader}

/-- A snapshot does not see it. -/
theorem DeletedFor.mvccDeleter (h : DeletedFor b snapshot tuple) :
    (mvccDeleter b snapshot tuple).1 = false := by
  have hpast := h.past
  rw [FdPostgres.mvccDeleter, h.valid, h.update]
  cases hmulti : has tuple.t_infomask HEAP_XMAX_IS_MULTI with
  | true =>
    rcases h.committed with ⟨hnot, _⟩ | ⟨hown, hcom⟩
    · rw [hmulti] at hnot
      cases hnot.symm
    · rw [updaterOf_multi hmulti] at hpast hown hcom
      simp [hpast, hown, hcom]
  | false =>
    rw [updaterOf_xmax hmulti] at hpast
    cases hmark : has tuple.t_infomask HEAP_XMAX_COMMITTED with
    | true => simp [hpast]
    | false =>
      rcases h.committed with ⟨_, hnot⟩ | ⟨hown, hcom⟩
      · rw [hmark] at hnot
        cases hnot
      · rw [updaterOf_xmax hmulti] at hown hcom
        simp [hpast, hown, hcom]

/-- Bits that are set stay set. -/
theorem has_setHintBits {bit : BitVec 16} (h : has tuple.t_infomask bit = true) (mask : BitVec 16)
    (xid : ℕ) : has (SetHintBits b tuple mask xid).t_infomask bit = true := by
  rcases setHintBits_cases b tuple mask xid with heq | heq
  · rw [heq, h]
  · rw [heq, has_or, h, Bool.true_or]

/-- The same deleter under other hints. -/
theorem DeletedFor.congr (h : DeletedFor b snapshot tuple) (hxmax : tuple'.t_xmax = tuple.t_xmax)
    (hinval : has tuple'.t_infomask HEAP_XMAX_INVALID = has tuple.t_infomask HEAP_XMAX_INVALID)
    (hmulti : has tuple'.t_infomask HEAP_XMAX_IS_MULTI = has tuple.t_infomask HEAP_XMAX_IS_MULTI)
    (hlock : HEAP_XMAX_IS_LOCKED_ONLY tuple'.t_infomask =
      HEAP_XMAX_IS_LOCKED_ONLY tuple.t_infomask)
    (hmark : has tuple.t_infomask HEAP_XMAX_COMMITTED = true →
      has tuple'.t_infomask HEAP_XMAX_COMMITTED = true) : DeletedFor b snapshot tuple' := by
  have hupd : updaterOf b tuple' = updaterOf b tuple := by
    simp only [updaterOf, HeapTupleGetUpdateXid, hmulti, hxmax]
  refine ⟨hinval.trans h.valid, hlock.trans h.update, by rw [hupd]; exact h.past, ?_⟩
  rw [hupd, hmulti]
  exact h.committed.imp_left fun hc => ⟨hc.1, hmark hc.2⟩

/-- A hint that the deleter committed. -/
theorem DeletedFor.markXmax (h : DeletedFor b snapshot tuple) (xid : ℕ) :
    DeletedFor b snapshot (SetHintBits b' tuple HEAP_XMAX_COMMITTED xid) := by
  have honly : OnlyHints tuple (SetHintBits b' tuple HEAP_XMAX_COMMITTED xid) :=
    onlyHints_xmax (.inl rfl) xid
  refine h.congr honly.xmax ?_ honly.multi honly.locked fun hmark => has_setHintBits hmark _ _
  rcases setHintBits_cases b' tuple HEAP_XMAX_COMMITTED xid with heq | heq
  · rw [heq]
  · rw [heq, has_or_of_disjoint rfl]

/-- A hint that the inserter committed says nothing about the deleter. -/
theorem deletedFor_markXmin (xid : ℕ) :
    DeletedFor b snapshot (SetHintBits b' tuple HEAP_XMIN_COMMITTED xid) ↔
      DeletedFor b snapshot tuple := by
  have hmask : HintMask HEAP_XMIN_COMMITTED := ⟨rfl, rfl, rfl, rfl, rfl, rfl⟩
  rcases setHintBits_cases b' tuple HEAP_XMIN_COMMITTED xid with heq | heq
  · rw [heq]
  · rw [heq]
    constructor
    · intro h
      exact h.congr rfl (has_or_of_disjoint rfl).symm (has_or_of_disjoint hmask.multi).symm
        (hmask.locked _).symm fun hmark => by rwa [has_or_of_disjoint rfl] at hmark
    · intro h
      exact h.congr rfl (has_or_of_disjoint rfl) (has_or_of_disjoint hmask.multi)
        (hmask.locked _) fun hmark => by rwa [has_or_of_disjoint rfl]

/-- The updater is the same under a hint about the inserter. -/
theorem updaterOf_markXmin
    (h : tuple' = tuple ∨ ∃ xid, tuple' = SetHintBits b' tuple HEAP_XMIN_COMMITTED xid) :
    updaterOf b tuple' = updaterOf b tuple := by
  rcases h with rfl | ⟨xid, rfl⟩
  · rfl
  · rcases setHintBits_cases b' tuple HEAP_XMIN_COMMITTED xid with heq | heq
    · rw [heq]
    · have hmulti : has (tuple.t_infomask ||| HEAP_XMIN_COMMITTED) HEAP_XMAX_IS_MULTI =
          has tuple.t_infomask HEAP_XMAX_IS_MULTI := has_or_of_disjoint rfl
      rw [heq]
      simp only [updaterOf, HeapTupleGetUpdateXid, hmulti]

/-- Hints do not bring the inserter back. -/
theorem InserterOver.setHintBits (h : InserterOver b tuple) (mask : BitVec 16) (xid : ℕ) :
    InserterOver b (SetHintBits b' tuple mask xid) := by
  have hxmin : (SetHintBits b' tuple mask xid).t_xmin = tuple.t_xmin := by
    rcases setHintBits_cases b' tuple mask xid with heq | heq
    · rw [heq]
    · rw [heq]
  rcases h with h | h | h | h
  · exact .inl (has_setHintBits h mask xid)
  · exact .inr (.inl (has_setHintBits h mask xid))
  · exact .inr (.inr (.inl (has_setHintBits h mask xid)))
  · exact .inr (.inr (.inr (by rw [hxmin]; exact h)))

/-- What the part for the inserter leaves: the answer that the tuple is not seen, or the question
about the deleter. -/
theorem mvccInserter_cases (h : InserterOver b tuple) :
    (∃ r, mvccInserter b snapshot tuple = .inl (false, r)) ∨
      mvccInserter b snapshot tuple = .inr tuple ∨ ∃ xid, mvccInserter b snapshot tuple =
        .inr (SetHintBits b tuple HEAP_XMIN_COMMITTED xid) := by
  rw [mvccInserter]
  split
  · rename_i hcomm
    split
    · exact .inl ⟨_, rfl⟩
    · split
      · -- moved off
        dsimp only
        split
        · exact .inl ⟨_, rfl⟩
        · split
          · split
            · exact .inl ⟨_, rfl⟩
            · exact .inr (.inr ⟨_, rfl⟩)
          · exact .inr (.inl rfl)
      · rename_i hoff
        split
        · -- moved in
          dsimp only
          split
          · split
            · exact .inl ⟨_, rfl⟩
            · split
              · exact .inr (.inr ⟨_, rfl⟩)
              · exact .inl ⟨_, rfl⟩
          · exact .inr (.inl rfl)
        · rename_i hin
          split
          · rename_i hown
            rw [HeapTupleHeaderXminCommitted, not_eq_true'] at hcomm
            rcases h with h | h | h | h
            · rw [hcomm] at h
              exact absurd h false_ne_true
            · exact absurd h hoff
            · exact absurd h hin
            · rw [h] at hown
              exact absurd hown false_ne_true
          · split
            · exact .inl ⟨_, rfl⟩
            · split
              · exact .inr (.inr ⟨_, rfl⟩)
              · exact .inl ⟨_, rfl⟩
  · split
    · exact .inl ⟨_, rfl⟩
    · exact .inr (.inl rfl)

/-- **A tuple whose deleter is over for a snapshot is not seen.** -/
theorem mvcc_of_deleted (hover : InserterOver b tuple) (h : DeletedFor b snapshot tuple) :
    (HeapTupleSatisfiesMVCC b snapshot tuple).1 = false := by
  have hcases : (∃ r, mvccInserter b snapshot tuple = .inl (false, r)) ∨ _ :=
    mvccInserter_cases hover
  rcases hcases with ⟨r, hr⟩ | hr | ⟨xid, hr⟩
  · rw [HeapTupleSatisfiesMVCC, hr]
  · rw [HeapTupleSatisfiesMVCC, hr]
    exact h.mvccDeleter
  · rw [HeapTupleSatisfiesMVCC, hr]
    exact ((deletedFor_markXmin xid).mpr h).mvccDeleter

/-- **Why a tuple is recently dead**: its deleter is marked to have committed or was found to have,
and the header is at most marked so. -/
structure RecentlyDead (b : XactView) (tuple : HeapTupleHeader) (v : VacuumVerdict) : Prop where
  valid : has tuple.t_infomask HEAP_XMAX_INVALID = false
  update : HEAP_XMAX_IS_LOCKED_ONLY tuple.t_infomask = false
  after : v.dead_after = updaterOf b tuple
  committed : (has tuple.t_infomask HEAP_XMAX_IS_MULTI = false ∧
      has tuple.t_infomask HEAP_XMAX_COMMITTED = true) ∨
    TransactionIdDidCommit b (updaterOf b tuple) = true
  left : v.tuple = tuple ∨ v.tuple = SetHintBits b tuple HEAP_XMAX_COMMITTED tuple.t_xmax

/-- What makes a tuple recently dead. -/
theorem vacuumDeleter_recentlyDead (h : (vacuumDeleter b tuple).result = .RECENTLY_DEAD) :
    RecentlyDead b tuple (vacuumDeleter b tuple) := by
  revert h
  rw [vacuumDeleter]
  split
  · exact nofun
  · rename_i hinval
    rw [not_eq_true] at hinval
    split
    · -- a locker only
      split
      · split
        · split <;> exact nofun
        · split <;> exact nofun
      · exact nofun
    · rename_i hlock
      rw [not_eq_true] at hlock
      split
      · rename_i hmulti
        rw [← updaterOf_multi hmulti]
        dsimp only
        split
        · exact nofun
        · split
          · rename_i hcom
            exact fun _ => ⟨hinval, hlock, rfl, .inr hcom, .inl rfl⟩
          · split <;> exact nofun
      · rename_i hmulti
        rw [not_eq_true] at hmulti
        have hupd := updaterOf_xmax (b := b) hmulti
        split
        · split
          · exact nofun
          · split
            · rename_i hcom
              rw [← hupd] at hcom
              exact fun _ => ⟨hinval, hlock, hupd.symm, .inr hcom, .inr rfl⟩
            · exact nofun
        · rename_i hmark
          rw [not_eq_true, not_eq_false'] at hmark
          exact fun _ => ⟨hinval, hlock, hupd.symm, .inl ⟨hmulti, hmark⟩, .inl rfl⟩

/-- **A recently dead tuple is deleted for each later snapshot** for which its deleter is over. -/
theorem RecentlyDead.deletedFor {v : VacuumVerdict} (h : RecentlyDead b tuple v)
    (hlater : b.Later b') (hb' : b'.Consistent)
    (hpast : XidInMVCCSnapshot b' (updaterOf b tuple) snapshot = false) :
    DeletedFor b' snapshot tuple ∧ DeletedFor b' snapshot v.tuple := by
  have hupd : updaterOf b' tuple = updaterOf b tuple := hlater.updaterOf
  have hdeld : DeletedFor b' snapshot tuple := by
    refine ⟨h.valid, h.update, by rw [hupd, hpast], ?_⟩
    rw [hupd]
    refine h.committed.imp_right fun hcom => ?_
    have hcom' := hlater.didCommit hcom
    exact ⟨hb'.not_current_of_didCommit hcom', hcom'⟩
  refine ⟨hdeld, ?_⟩
  rcases h.left with hleft | hleft
  · rw [hleft]
    exact hdeld
  · rw [hleft]
    exact hdeld.markXmax _

/-- The part for the deleter never calls a tuple dead by itself. -/
theorem vacuumDeleter_ne_dead : (vacuumDeleter b tuple).result ≠ .DEAD := by
  rw [vacuumDeleter]
  dsimp only
  repeat' split
  all_goals exact nofun

end Deleted

/-! ### A tuple whose inserter is over -/

section Inserter

variable {b b' : XactView} {snapshot : SnapshotData} {tuple tuple' : HeapTupleHeader}

/-- The inserter is marked as aborted. -/
theorem mvcc_of_xminInvalid (h : HeapTupleHeaderXminInvalid tuple = true) :
    (HeapTupleSatisfiesMVCC b snapshot tuple).1 = false := by
  have hclear : HeapTupleHeaderXminCommitted tuple = false := by
    rw [xminInvalid_eq, and_eq_true, not_eq_true'] at h
    exact h.1
  rw [HeapTupleSatisfiesMVCC, mvccInserter, hclear, h]
  rfl

/-- A mark that names no transaction is always set. -/
theorem xminInvalid_setHintBits (h : has tuple.t_infomask HEAP_XMIN_COMMITTED = false) :
    HeapTupleHeaderXminInvalid (SetHintBits b tuple HEAP_XMIN_INVALID InvalidTransactionId) =
      true := by
  have hset : SetHintBits b tuple HEAP_XMIN_INVALID InvalidTransactionId =
      { tuple with t_infomask := tuple.t_infomask ||| HEAP_XMIN_INVALID } := rfl
  have hclear : has (tuple.t_infomask ||| HEAP_XMIN_INVALID) HEAP_XMIN_COMMITTED = false := by
    rw [has_or_of_disjoint rfl, h]
  have hmark : has (tuple.t_infomask ||| HEAP_XMIN_INVALID) HEAP_XMIN_INVALID = true := by
    rw [has_or, or_eq_true]
    exact .inr rfl
  rw [hset, xminInvalid_eq, hclear, hmark]
  rfl

/-- Why a tuple that is not marked is dead because of its inserter: an old-style vacuum that moved
it off has committed, one that moved it in was rolled back, or its inserter was. -/
inductive DeadInserter (b : XactView) (tuple : HeapTupleHeader) : Prop
  | movedOff (hoff : has tuple.t_infomask HEAP_MOVED_OFF = true)
      (hcommit : TransactionIdDidCommit b (HeapTupleHeaderGetXvac tuple) = true)
  | movedIn (hoff : has tuple.t_infomask HEAP_MOVED_OFF = false)
      (hin : has tuple.t_infomask HEAP_MOVED_IN = true)
      (haborted : XidAborted b (HeapTupleHeaderGetXvac tuple))
  | aborted (hoff : has tuple.t_infomask HEAP_MOVED_OFF = false)
      (hin : has tuple.t_infomask HEAP_MOVED_IN = false)
      (haborted : XidAborted b tuple.t_xmin)

/-- **What the part for the inserter says**: the tuple is dead and is left marked, or it is neither
dead nor recently dead, or the inserter is over and is at most marked so. -/
inductive InserterVerdict (b : XactView) (tuple : HeapTupleHeader) :
    VacuumVerdict ⊕ HeapTupleHeader → Prop
  | marked (hinvalid : HeapTupleHeaderXminInvalid tuple = true) :
      InserterVerdict b tuple (.inl (verdict .DEAD tuple))
  | dead (hclear : HeapTupleHeaderXminCommitted tuple = false) (h : DeadInserter b tuple) :
      InserterVerdict b tuple
        (.inl (verdict .DEAD (SetHintBits b tuple HEAP_XMIN_INVALID InvalidTransactionId)))
  | alive {r : HTSV_Result} (hdead : r ≠ .DEAD) (hrecent : r ≠ .RECENTLY_DEAD) :
      InserterVerdict b tuple (.inl (verdict r tuple))
  | committed (h : HeapTupleHeaderXminCommitted tuple = true) : InserterVerdict b tuple (.inr tuple)
  | found (xid : ℕ) (h : has tuple.t_infomask HEAP_MOVED_OFF = true ∨
        has tuple.t_infomask HEAP_MOVED_IN = true ∨ TransactionIdDidCommit b tuple.t_xmin = true) :
      InserterVerdict b tuple (.inr (SetHintBits b tuple HEAP_XMIN_COMMITTED xid))

theorem vacuumInserter_verdict (b : XactView) (tuple : HeapTupleHeader) :
    InserterVerdict b tuple (vacuumInserter b tuple) := by
  rw [vacuumInserter]
  split
  · rename_i hclear
    rw [not_eq_true'] at hclear
    split
    · rename_i hinval
      exact .marked hinval
    split
    · rename_i hoff
      dsimp only
      split
      · exact .alive nofun nofun
      split
      · exact .alive nofun nofun
      split
      · rename_i hcom
        exact .dead hclear (.movedOff hoff hcom)
      · exact .found _ (.inl hoff)
    rename_i hoff
    rw [not_eq_true] at hoff
    split
    · rename_i hin
      dsimp only
      split
      · exact .alive nofun nofun
      split
      · exact .alive nofun nofun
      split
      · exact .found _ (.inr (.inl hin))
      · rename_i hrun hcom
        rw [not_eq_true] at hrun hcom
        exact .dead hclear (.movedIn hoff hin ⟨hcom, hrun⟩)
    rename_i hin
    rw [not_eq_true] at hin
    split
    · -- an own tuple
      split
      · exact .alive nofun nofun
      split
      · exact .alive nofun nofun
      split <;> exact .alive nofun nofun
    split
    · exact .alive nofun nofun
    split
    · rename_i hcom
      exact .found _ (.inr (.inr hcom))
    · rename_i hrun hcom
      rw [not_eq_true] at hrun hcom
      exact .dead hclear (.aborted hoff hin ⟨hcom, hrun⟩)
  · rename_i hcomm
    rw [not_eq_true, not_eq_false'] at hcomm
    exact .committed hcomm

/-- The transaction of an old-style vacuum that moved the tuple off is running for the snapshot. -/
def MovedOffFor (b : XactView) (snapshot : SnapshotData) (tuple : HeapTupleHeader) : Prop :=
  has tuple.t_infomask HEAP_MOVED_OFF = true ∧
    XidInMVCCSnapshot b (HeapTupleHeaderGetXvac tuple) snapshot = true

/-- **A tuple that its inserter made dead was not seen before either**, except one that was moved
off by a vacuum that is running for the snapshot. -/
theorem DeadInserter.mvcc (h : DeadInserter b tuple) (hlater : b.Later b') (hb' : b'.Consistent)
    (hclear : HeapTupleHeaderXminCommitted tuple = false) :
    (HeapTupleSatisfiesMVCC b' snapshot tuple).1 = false ∨ MovedOffFor b' snapshot tuple := by
  cases hinval : HeapTupleHeaderXminInvalid tuple with
  | true => exact .inl (mvcc_of_xminInvalid hinval)
  | false =>
    cases h with
    | movedOff hoff hcom =>
      have hcom' := hlater.didCommit hcom
      have hown := hb'.not_current_of_didCommit hcom'
      cases hrun : XidInMVCCSnapshot b' (HeapTupleHeaderGetXvac tuple) snapshot with
      | true => exact .inr ⟨hoff, hrun⟩
      | false =>
        simp [HeapTupleSatisfiesMVCC, mvccInserter, hclear, hinval, hoff, hown, hrun,
          hcom']
    | movedIn hoff hin habort | aborted hoff hin habort =>
      have habort' := hlater.aborted habort
      have hown := hb'.not_current habort'
      refine .inl ?_
      simp only [HeapTupleSatisfiesMVCC, mvccInserter, hclear, hoff, hin, hown,
        habort'.1, Bool.not_false, Bool.false_eq_true, if_true, if_false]
      split_ifs <;> rfl

/-- **What leaves the question to the deleter**: the inserter is over, and at most marked so. -/
theorem vacuumInserter_over (hlater : b.Later b') (hb' : b'.Consistent)
    (h : vacuumInserter b tuple = .inr tuple') : InserterOver b' tuple ∧
      (tuple' = tuple ∨ ∃ xid, tuple' = SetHintBits b tuple HEAP_XMIN_COMMITTED xid) := by
  have hverd := vacuumInserter_verdict b tuple
  rw [h] at hverd
  cases hverd with
  | committed hcomm => exact ⟨.inl hcomm, .inl rfl⟩
  | found xid hfound =>
    refine ⟨.inr (hfound.imp_right (Or.imp_right fun hcom => ?_)), .inr ⟨xid, rfl⟩⟩
    exact hb'.not_current_of_didCommit (hlater.didCommit hcom)

end Inserter

/-! ### The result -/

section Result

variable {b b' : XactView} {snapshot : SnapshotData} {tuple tuple' : HeapTupleHeader}
  {OldestXmin : ℕ}

/-- A tuple that the part for the deleter left recently dead. -/
theorem mvcc_of_recentlyDead (hlater : b.Later b') (hb' : b'.Consistent)
    (hins : vacuumInserter b tuple = .inr tuple')
    (hrcnt : (vacuumDeleter b tuple').result = .RECENTLY_DEAD)
    (hpast : XidInMVCCSnapshot b' (updaterOf b tuple) snapshot = false) :
    (HeapTupleSatisfiesMVCC b' snapshot (vacuumDeleter b tuple').tuple).1 = false ∧
      (HeapTupleSatisfiesMVCC b' snapshot tuple).1 = false := by
  obtain ⟨hover, hleft⟩ := vacuumInserter_over hlater hb' hins
  have hrcnt' := vacuumDeleter_recentlyDead hrcnt
  have hover' : InserterOver b' tuple' := by
    rcases hleft with rfl | ⟨xid, rfl⟩
    · exact hover
    · exact hover.setHintBits _ _
  have hupd : updaterOf b tuple' = updaterOf b tuple := updaterOf_markXmin hleft
  obtain ⟨hbef, hafter⟩ := hrcnt'.deletedFor hlater hb' (by rw [hupd]; exact hpast)
  constructor
  · refine mvcc_of_deleted ?_ hafter
    rcases hrcnt'.left with heq | heq
    · rw [heq]
      exact hover'
    · rw [heq]
      exact hover'.setHintBits _ _
  · refine mvcc_of_deleted hover ?_
    rcases hleft with rfl | ⟨xid, rfl⟩
    · exact hbef
    · exact (deletedFor_markXmin xid).mp hbef

/-- The verdict for a tuple that is surely dead. -/
theorem dead_of_surelyDead {isRemovable : ℕ → Bool}
    (hremovable : ∀ xid, isRemovable xid = true → TransactionIdPrecedes xid OldestXmin = true)
    (h : HeapTupleIsSurelyDead tuple isRemovable = true) :
    (HeapTupleSatisfiesVacuum b tuple OldestXmin).1 = .DEAD := by
  cases hcomm : HeapTupleHeaderXminCommitted tuple with
  | false =>
    rw [HeapTupleIsSurelyDead, hcomm] at h
    have hinval : HeapTupleHeaderXminInvalid tuple = true := h
    rw [HeapTupleSatisfiesVacuum, HeapTupleSatisfiesVacuumHorizon, vacuumInserter, hcomm,
      hinval]
    rfl
  | true =>
    have hins : vacuumInserter b tuple = .inr tuple := by
      rw [vacuumInserter, hcomm]
      rfl
    rw [HeapTupleIsSurelyDead, hcomm, if_neg (by simp)] at h
    split at h
    · exact absurd h false_ne_true
    rename_i hinval
    split at h
    · exact absurd h false_ne_true
    rename_i hlock
    split at h
    · exact absurd h false_ne_true
    rename_i hmulti
    split at h
    · exact absurd h false_ne_true
    rename_i hmark
    simp only [HeapTupleSatisfiesVacuum, HeapTupleSatisfiesVacuumHorizon, hins,
      vacuumDeleter, if_neg hinval, if_neg hlock, if_neg hmulti, if_neg hmark, if_true,
      hremovable tuple.t_xmax h]

end Result

/-- **Vacuum never removes a tuple that some snapshot sees.** A tuple is dead for a horizon that is
not after the snapshot. Then the snapshot does not see it, as it is left, for the same or any later
outcomes of transactions and in any backend; and it does not see it as it was found, unless it was
moved off by an old-style vacuum that is running for the snapshot. A tuple that is surely dead is
dead. -/
theorem vacuum_dead_unseen (b : XactView) (tuple : HeapTupleHeader) (OldestXmin : ℕ) :
    (∀ (base : ℕ) (b' : XactView) (snapshot : SnapshotData), b.Later b' → b'.Consistent →
      InUse base OldestXmin → InUse base snapshot.xmin →
      (TransactionIdIsNormal (updaterOf b tuple) = true → InUse base (updaterOf b tuple)) →
      TransactionIdPrecedes snapshot.xmin OldestXmin = false →
      (HeapTupleSatisfiesVacuum b tuple OldestXmin).1 = .DEAD →
      (HeapTupleSatisfiesMVCC b' snapshot (HeapTupleSatisfiesVacuum b tuple OldestXmin).2).1 =
          false ∧
        ((HeapTupleSatisfiesMVCC b' snapshot tuple).1 = false ∨ MovedOffFor b' snapshot tuple)) ∧
    ∀ isRemovable : ℕ → Bool,
      (∀ xid, isRemovable xid = true → TransactionIdPrecedes xid OldestXmin = true) →
      HeapTupleIsSurelyDead tuple isRemovable = true →
      (HeapTupleSatisfiesVacuum b tuple OldestXmin).1 = .DEAD := by
  refine ⟨?_, fun isRemovable => dead_of_surelyDead⟩
  intro base b' snapshot hlater hb' hold hxmin hupd hle
  rw [HeapTupleSatisfiesVacuum, HeapTupleSatisfiesVacuumHorizon]
  cases hins : vacuumInserter b tuple with
  | inl v =>
    have hverd := vacuumInserter_verdict b tuple
    rw [hins] at hverd
    cases hverd with
    | marked hinval =>
      exact fun _ => ⟨mvcc_of_xminInvalid hinval, .inl (mvcc_of_xminInvalid hinval)⟩
    | dead hclear hreason =>
      exact fun _ => ⟨mvcc_of_xminInvalid (xminInvalid_setHintBits (b := b) hclear),
        hreason.mvcc hlater hb' hclear⟩
    | alive hdead hrcnt =>
      intro h
      rw [verdict, if_neg hrcnt] at h
      exact absurd h hdead
  | inr tuple' =>
    intro hdead
    by_cases hrcnt : (vacuumDeleter b tuple').result = .RECENTLY_DEAD
    · rw [if_pos hrcnt] at hdead ⊢
      have hbef :
          TransactionIdPrecedes (vacuumDeleter b tuple').dead_after OldestXmin = true := by
        by_contra hne
        rw [if_neg hne] at hdead
        exact HTSV_Result.noConfusion hdead
      rw [(vacuumDeleter_recentlyDead hrcnt).after,
        updaterOf_markXmin (vacuumInserter_over hlater hb' hins).2] at hbef
      have hpast : XidInMVCCSnapshot b' (updaterOf b tuple) snapshot = false := by
        rw [XidInMVCCSnapshot, if_pos (precedes_snapshot hupd hold hxmin hle hbef)]
      obtain ⟨hafter, hfound⟩ := mvcc_of_recentlyDead hlater hb' hins hrcnt hpast
      exact ⟨hafter, .inl hfound⟩
    · rw [if_neg hrcnt] at hdead
      exact absurd hdead vacuumDeleter_ne_dead

/-- A view in which all transactions but 100 and 200 were rolled back. -/
def twoXacts : XactView where
  state x := if x = 100 ∨ x = 200 then .committed else .aborted
  current _ := false
  topmost x := x
  members _ _ := []
  mayHint _ := true
  realCmin c := c
  realCmax c := c

/-- Transaction 100 inserted a tuple and transaction 200 deleted it, and the horizon is 250. A
snapshot of xmin 300 does not see the tuple, before and after hints are set. -/
theorem vacuum_dead_unseen_two_xacts :
    (HeapTupleSatisfiesVacuum twoXacts ⟨100, 200, 0, 0#16⟩ 250).1 = .DEAD ∧
      ∀ (b' : XactView), twoXacts.Later b' → b'.Consistent →
        (HeapTupleSatisfiesMVCC b' ⟨300, 310, [300], [], false, false, 0⟩
          ⟨100, 200, 0, HEAP_XMIN_COMMITTED ||| HEAP_XMAX_COMMITTED⟩).1 = false :=
  ⟨by decide, fun b' hlater hb' =>
    ((vacuum_dead_unseen twoXacts ⟨100, 200, 0, 0#16⟩ 250).1 100 b'
      ⟨300, 310, [300], [], false, false, 0⟩ hlater hb' ⟨by decide, by decide⟩
      ⟨by decide, by decide⟩ (fun _ => ⟨by decide, by decide⟩) (by decide) (by decide)).1⟩

/-- **A tuple that was moved off can be dead and seen.** Transaction 100 inserted a tuple, and an
old-style vacuum moved it off in transaction 200, which has committed. The tuple is dead for the
horizon 190. A snapshot of xmin 190, taken while 200 was running, sees it as it was found. -/
theorem movedOff_dead_seen :
    (HeapTupleSatisfiesVacuum twoXacts ⟨100, 0, 200, HEAP_MOVED_OFF ||| HEAP_XMAX_INVALID⟩ 190).1 =
        .DEAD ∧
      TransactionIdPrecedes 190 190 = false ∧
      (HeapTupleSatisfiesMVCC twoXacts ⟨190, 210, [200], [], false, false, 0⟩
        ⟨100, 0, 200, HEAP_MOVED_OFF ||| HEAP_XMAX_INVALID⟩).1 = true := by
  refine ⟨?_, ?_, ?_⟩
  · decide
  · decide
  · decide

end FdPostgres
