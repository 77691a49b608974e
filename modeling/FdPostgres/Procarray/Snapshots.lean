import FdPostgres.Procarray.Membership

/-!
# Snapshots over Time

A backend builds its snapshots in one static place and uses the last one again if no transaction
has completed since. A snapshot can be sent to other processes, without the subtransactions if they
would not be looked at.

* `GetSnapshotData`: a snapshot, built anew or used again.
* `SerializeSnapshot`, `RestoreSnapshot`: how it is sent.
* `XactState.SnapshotHistory`: the snapshots that a backend takes along a run.
* `snapshot_membership_exact`: **a snapshot answers exactly, at any later time and after it was
  sent**, apart from subtransactions that were rolled back before.
* `running_before`: **a tree of transactions becomes visible as a whole.**
-/

namespace FdPostgres

open List

/-! ### Sending a snapshot -/

structure SerializedSnapshotData where
  xmin : ℕ
  xmax : ℕ
  xcnt : ℕ
  subxcnt : ℕ
  suboverflowed : Bool
  takenDuringRecovery : Bool
  curcid : ℕ
  deriving Repr, DecidableEq

variable (snapshot : SnapshotData)

/-- `SerializeSnapshot`: the header, and the ids that follow it. -/
def SerializeSnapshot : SerializedSnapshotData × List ℕ :=
  let subxcnt :=
    if snapshot.suboverflowed && !snapshot.takenDuringRecovery then 0 else snapshot.subxip.length
  ({ xmin := snapshot.xmin, xmax := snapshot.xmax, xcnt := snapshot.xip.length, subxcnt := subxcnt,
     suboverflowed := snapshot.suboverflowed, takenDuringRecovery := snapshot.takenDuringRecovery,
     curcid := snapshot.curcid },
    snapshot.xip ++ if subxcnt > 0 then snapshot.subxip else [])

def RestoreSnapshot (serialized : SerializedSnapshotData × List ℕ) : SnapshotData where
  xmin := serialized.1.xmin
  xmax := serialized.1.xmax
  xip := serialized.2.take serialized.1.xcnt
  subxip := (serialized.2.drop serialized.1.xcnt).take serialized.1.subxcnt
  suboverflowed := serialized.1.suboverflowed
  takenDuringRecovery := serialized.1.takenDuringRecovery
  curcid := serialized.1.curcid

/-- What is left of a snapshot that was sent. -/
theorem restore_serialize : RestoreSnapshot (SerializeSnapshot snapshot) = { snapshot with
        subxip := if snapshot.suboverflowed && !snapshot.takenDuringRecovery then []
          else snapshot.subxip } := by
  simp only [RestoreSnapshot, SerializeSnapshot, take_left, drop_left]
  by_cases hdrop : (snapshot.suboverflowed && !snapshot.takenDuringRecovery) = true
  · rw [if_pos hdrop, if_pos hdrop, take_zero]
  · rw [if_neg hdrop, if_neg hdrop]
    by_cases hempty : snapshot.subxip.length > 0
    · rw [if_pos hempty, List.take_length]
    · have hnil : snapshot.subxip = [] := length_eq_zero_iff.mp (by omega)
      rw [hnil]
      rfl

/-- **A snapshot that was sent gives the same answers**, also one that was taken during recovery. -/
theorem restored_same (b : XactView) (xid : ℕ) (snapshot : SnapshotData) :
    XidInMVCCSnapshot b xid (RestoreSnapshot (SerializeSnapshot snapshot)) =
      XidInMVCCSnapshot b xid snapshot := by
  rw [restore_serialize]
  simp only [XidInMVCCSnapshot]
  cases hrec : snapshot.takenDuringRecovery with
  | true => simp
  | false =>
    cases hover : snapshot.suboverflowed with
    | true => simp
    | false => simp

/-! ### Using a snapshot again -/

/-- The static snapshot of a backend, with `snapXactCompletionCount`, which is zero if there is none
yet. -/
structure StaticSnapshot where
  snapshot : SnapshotData
  snapXactCompletionCount : ℕ

def GetSnapshotDataReuse (s : XactState) (static : StaticSnapshot) : Bool :=
  if static.snapXactCompletionCount = 0 then false
  else s.xactCompletionCount == static.snapXactCompletionCount

def GetSnapshotData (s : XactState) (static : StaticSnapshot) (curcid : ℕ) : StaticSnapshot :=
  if GetSnapshotDataReuse s static then
    { static with snapshot := { static.snapshot with curcid := curcid } }
  else
    { snapshot := buildSnapshot s.arrayP curcid
      snapXactCompletionCount := s.xactCompletionCount }

namespace XactState

variable {s s' : XactState}

/-- What does not change while no transaction completes. -/
structure NoneCompleted (s s' : XactState) : Prop where
  latest : s'.arrayP.latestCompletedXid = s.arrayP.latestCompletedXid
  live : ∀ x, x < s.nextXid → s'.live x = s.live x
  mine : s.arrayP.MyProc.xid = InvalidTransactionId ∨ s'.arrayP.MyProc.xid = s.arrayP.MyProc.xid

/-- The own transaction when an id is assigned. -/
theorem assign_myProc {proc : PGPROC → PGPROC} {pgxactoff parent top : ℕ}
    (h : ∀ p, s.arrayP.procs[pgxactoff]? = some p →
      p.xid = InvalidTransactionId ∨ (proc p).xid = p.xid) :
    s.arrayP.MyProc.xid = InvalidTransactionId ∨
      (s.assign proc pgxactoff parent top).arrayP.MyProc.xid = s.arrayP.MyProc.xid := by
  simp only [ProcArray.MyProc, assign, List.getElem?_modify]
  cases hmy : s.arrayP.procs[s.arrayP.mypgxactoff]? with
  | none => exact .inl rfl
  | some mine =>
    by_cases hi : pgxactoff = s.arrayP.mypgxactoff
    · rw [hi] at h
      simp only [hi]
      exact h mine hmy
    · simp [hi]

/-- A step that completes no transaction. -/
theorem Step.noneCompleted (hstep : s.Step s')
    (hcount : s'.xactCompletionCount = s.xactCompletionCount) : s.NoneCompleted s' := by
  obtain ⟨e, hon, rfl⟩ := hstep
  cases e with
  | assignXid pgxactoff =>
    obtain ⟨-, p, hp, hpxid⟩ := hon
    refine ⟨rfl, fun x hx => (assign_of_ne _ _ _ _ hx.ne).1, assign_myProc ?_⟩
    intro q hq
    rw [hp] at hq
    rw [← Option.some.inj hq]
    exact .inl hpxid
  | assignSubXid pgxactoff parent =>
    refine ⟨rfl, fun x hx => (assign_of_ne _ _ _ _ hx.ne).1, assign_myProc ?_⟩
    intro q _
    rw [cacheSubxid]
    split <;> exact .inr rfl
  | abortSub pgxactoff xid children
  | endTransaction pgxactoff xid children => exact absurd hcount (Nat.succ_ne_self _)
  | truncate transactionXmin pg_subtrans | freeze oldest => exact ⟨rfl, fun _ _ => rfl, .inr rfl⟩

/-- **As long as the count is the same, no transaction has completed.** -/
theorem Run.noneCompleted (h : s.Inv) (hrun : s.Run s')
    (hcount : s'.xactCompletionCount = s.xactCompletionCount) : s.NoneCompleted s' := by
  induction hrun with
  | refl => exact ⟨rfl, fun _ _ => rfl, .inr rfl⟩
  | @tail b c hrun hstep ih =>
    have hinv : b.Inv := Run.inv h hrun
    have hkeeps : s.Keeps b := Run.keeps h hrun
    have hle := (hinv.keeps hstep).count
    have hge := hkeeps.count
    have hb := ih (by omega)
    have hc := Step.noneCompleted hstep (by omega)
    refine ⟨hc.latest.trans hb.latest, ?_, ?_⟩
    · intro x hx
      rw [hc.live x (lt_of_lt_of_le hx hkeeps.next), hb.live x hx]
    · rcases hb.mine with hmine | hmine
      · exact .inl hmine
      · rw [← hmine]
        exact hc.mine

/-! ### Snapshots along a run -/

/-- **The static snapshot of a backend along a run.** -/
inductive SnapshotHistory : XactState → StaticSnapshot → Prop
  /-- No snapshot was taken yet. -/
  | start {s : XactState} (snapshot : SnapshotData) : s.Inv → SnapshotHistory s ⟨snapshot, 0⟩
  /-- Transactions come and go. -/
  | step {s s' : XactState} {static : StaticSnapshot} : SnapshotHistory s static → s.Step s' →
      SnapshotHistory s' static
  /-- The backend takes a snapshot. -/
  | get {s : XactState} {static : StaticSnapshot} (curcid : ℕ) : SnapshotHistory s static →
      SnapshotHistory s (GetSnapshotData s static curcid)

/-- The static snapshot was built in an earlier state with the same count. -/
def BuiltBefore (s : XactState) (static : StaticSnapshot) : Prop :=
  ∃ (s₀ : XactState) (xmin xmax : ℕ), s₀.Inv ∧ s₀.Run s ∧
    static.snapXactCompletionCount = s₀.xactCompletionCount ∧ s₀.Built static.snapshot xmin xmax

variable {snapshot : SnapshotData}

/-- The command id of a snapshot does not matter for what it lists. -/
theorem Built.curcid {xmin xmax : ℕ} (h : s.Built snapshot xmin xmax) (curcid : ℕ) :
    s.Built { snapshot with curcid := curcid } xmin xmax :=
  ⟨h.xmin_id, h.xmax_id, h.recovery, h.oldest_le, h.xmin_le, h.latest_lt, h.xmax_le, h.xmin_le_top,
    h.xip, h.subxip⟩

variable {static : StaticSnapshot}

/-- A snapshot was built in an earlier state, since when no transaction has completed. -/
theorem getSnapshotData_built (h : s.Inv)
    (hstatic : static.snapXactCompletionCount = 0 ∨ s.BuiltBefore static) (curcid : ℕ) :
    s.BuiltBefore (GetSnapshotData s static curcid) ∧
      (GetSnapshotData s static curcid).snapXactCompletionCount = s.xactCompletionCount := by
  rw [GetSnapshotData]
  split_ifs with hreuse
  · rw [GetSnapshotDataReuse] at hreuse
    split at hreuse
    · cases hreuse
    · rename_i hne
      rcases hstatic with hzero | ⟨s₀, xmin, xmax, hinv, hrun, hcount, hbuilt⟩
      · exact absurd hzero hne
      · exact ⟨⟨s₀, xmin, xmax, hinv, hrun, hcount, hbuilt.curcid curcid⟩,
          (beq_iff_eq.mp hreuse).symm⟩
  · obtain ⟨xmin, xmax, hbuilt⟩ := h.built curcid
    exact ⟨⟨s, xmin, xmax, h, .refl, rfl, hbuilt⟩, rfl⟩

/-- Along a run the static snapshot was built in an earlier state. -/
theorem SnapshotHistory.inv (h : SnapshotHistory s static) :
    s.Inv ∧ (static.snapXactCompletionCount = 0 ∨ s.BuiltBefore static) := by
  induction h with
  | start snapshot hinv => exact ⟨hinv, .inl rfl⟩
  | step _ hstep ih =>
    refine ⟨ih.1.step hstep, ?_⟩
    rcases ih.2 with hzero | ⟨s₀, xmin, xmax, hinv, hrun, hcount, hbuilt⟩
    · exact .inl hzero
    · exact .inr ⟨s₀, xmin, xmax, hinv, hrun.tail hstep, hcount, hbuilt⟩
  | get curcid _ ih => exact ⟨ih.1, .inr (getSnapshotData_built ih.1 ih.2 curcid).1⟩

/-- A transaction of another backend. -/
def OfOther (s : XactState) (x : ℕ) : Prop :=
  s.live (s.top x) = true → XidFromFullTransactionId (s.top x) ≠ s.arrayP.MyProc.xid

/-- A subtransaction was rolled back while its top transaction goes on. -/
def RolledBack (s : XactState) (x : ℕ) : Prop := s.live x = false ∧ s.live (s.top x) = true

/-- The answer of a snapshot that is used again, for an id that was assigned in between. -/
theorem Built.after {xmin xmax : ℕ} (hbuilt : s.Built snapshot xmin xmax) (b : XactView) {x : ℕ}
    (hnorm : FirstNormalTransactionId ≤ XidFromFullTransactionId x) (hafter : xmax ≤ x)
    (hnear : x < xmin + 2 ^ 31) :
    XidInMVCCSnapshot b (XidFromFullTransactionId x) snapshot = true := by
  have hle := hbuilt.xmin_le
  have hprec := (idOf hnorm).precedes hbuilt.xmin_id (by omega) (by omega)
  have hfol := (idOf hnorm).followsOrEquals hbuilt.xmax_id (by omega) (by omega)
  rw [XidInMVCCSnapshot, hprec, decide_eq_false (by omega), if_neg Bool.false_ne_true, hfol,
    decide_eq_true (Int.ofNat_le.mpr hafter), if_pos rfl]

/-- **The answer of the snapshot that `GetSnapshotData` returns.** -/
theorem SnapshotHistory.exact {static : StaticSnapshot} (h : SnapshotHistory s static) (curcid : ℕ)
    (hrun : s.Run s')
    (hheld : s'.transactionXmin ≤ s.arrayP.full (GetSnapshotData s static curcid).snapshot.xmin)
    (b : XactView) {x : ℕ} (hx : s.Assigned x) (hother : s.OfOther x) (hroll : ¬ s.RolledBack x) :
    XidInMVCCSnapshot (s'.view b) (XidFromFullTransactionId x)
        (GetSnapshotData s static curcid).snapshot = decide (s.live (s.top x) = true ∨
        s.arrayP.full (GetSnapshotData s static curcid).snapshot.xmax ≤ x) := by
  obtain ⟨hinv, hstatic⟩ := h.inv
  obtain ⟨⟨s₀, xmin, xmax, hinv₀, hrun₀, hcount₀, hbuilt⟩, hcount⟩ :=
    getSnapshotData_built hinv hstatic curcid
  generalize (GetSnapshotData s static curcid) = taken at hheld hcount₀ hbuilt hcount ⊢
  have hkeeps := Run.keeps hinv₀ hrun₀
  have hkeeps' := Run.keeps hinv hrun
  have hnone := Run.noneCompleted hinv₀ hrun₀ (hcount.symm.trans hcount₀)
  -- the 64-bit ids of `xmin` and `xmax`
  have hstop := hinv₀.stop
  have hlt := hinv₀.next_lt
  have hlat := hinv₀.latest_lt
  have hold := hinv₀.oldest_le_latest
  have hlo := hbuilt.oldest_le
  have hle := hbuilt.xmin_le
  have hhi := hbuilt.xmax_le s₀.nextXid hlat hinv₀.normal
  rw [MaxTransactionId] at hstop
  have hxmin : s.arrayP.full taken.snapshot.xmin = xmin := by
    rw [ProcArray.full, hnone.latest, hbuilt.xmin_id.relativeTo (by omega) (by omega)]
    omega
  have hxmax : s.arrayP.full taken.snapshot.xmax = xmax := by
    rw [ProcArray.full, hnone.latest, hbuilt.xmax_id.relativeTo (by omega) (by omega)]
    omega
  rw [hxmin] at hheld
  rw [hxmax]
  by_cases hbef : x < s₀.nextXid
  · have hx₀ : s₀.Assigned x := ⟨hkeeps.oldest.trans hx.oldest_le, hbef, hx.normal⟩
    have htop := hkeeps.top x hbef
    have htople := hinv₀.top_le x hbef hx.normal
    have hlive := hnone.live x hbef
    have htoplive := hnone.live (s₀.top x) (lt_of_le_of_lt htople hbef)
    rw [htop, htoplive]
    refine hbuilt.exact hinv₀ (hrun₀.trans hrun) hheld b hx₀ ?_ ?_
    · intro hl
      rcases hnone.mine with hmine | hmine
      · rw [hmine]
        exact hinv₀.word_ne hl
      · rw [← hmine, ← htop]
        exact hother (by rw [htop, htoplive]; exact hl)
    · intro hover
      rw [← Bool.not_eq_true]
      intro hl
      exact hroll ⟨hlive.trans hover, by rw [htop, htoplive]; exact hl⟩
  · have hafter : xmax ≤ x := hhi.trans (not_lt.mp hbef)
    have hstop' := hinv.stop
    have hxlt := hx.lt_next
    have hoxmin := hinv.oldest_le.trans hkeeps'.xmin
    rw [MaxTransactionId] at hstop'
    rw [hbuilt.after (s'.view b) hx.normal hafter (by omega), decide_eq_true (.inr hafter)]

/-- A lookup for the snapshot that `GetSnapshotData` returns does not fail. -/
theorem SnapshotHistory.lookup (h : SnapshotHistory s static) (hrun : s.Run s') {x : ℕ}
    (hx : s.Assigned x) (hreach : s'.transactionXmin ≤ x) :
    (SubTransGetTopmostTransaction s'.pg_subtrans (XidFromFullTransactionId s'.transactionXmin)
      (XidFromFullTransactionId x)).isSome = true := by
  have hinv := h.inv.1
  have hkeeps := Run.keeps hinv hrun
  have hstop := hinv.stop
  have hxhi := hx.lt_next
  have hxmin := hinv.oldest_le.trans hkeeps.xmin
  rw [MaxTransactionId] at hstop
  obtain ⟨y, hy, -⟩ := hinv.topmostLoop hkeeps.xmin (Run.inv hinv hrun).xmin_normal hkeeps.subtrans
    (2 ^ 32) x (XidFromFullTransactionId x) hx hreach (by omega)
  rw [SubTransGetTopmostTransaction, hy]
  rfl

end XactState

open XactState

/-- **A snapshot answers membership exactly.** It takes a transaction of another backend for running
exactly if its top transaction had not completed when the snapshot was taken, or the id is not
before `xmax`, apart from subtransactions that were rolled back before. So it does in every later
state in which the snapshot is still held, and after it was sent; lookups in `pg_subtrans` do not
fail. Sending a snapshot never changes an answer. -/
theorem snapshot_membership_exact :
    (∀ (s s' : XactState) (static : StaticSnapshot) (curcid : ℕ), SnapshotHistory s static →
      s.Run s' →
      s'.transactionXmin ≤ s.arrayP.full (GetSnapshotData s static curcid).snapshot.xmin →
      ∀ (b : XactView) (x : ℕ), s.Assigned x → s.OfOther x → ¬ s.RolledBack x →
      let snapshot := (GetSnapshotData s static curcid).snapshot
      XidInMVCCSnapshot (s'.view b) (XidFromFullTransactionId x) snapshot =
          decide (s.live (s.top x) = true ∨ s.arrayP.full snapshot.xmax ≤ x) ∧
        XidInMVCCSnapshot (s'.view b) (XidFromFullTransactionId x)
            (RestoreSnapshot (SerializeSnapshot snapshot)) =
          decide (s.live (s.top x) = true ∨ s.arrayP.full snapshot.xmax ≤ x) ∧
        (s'.transactionXmin ≤ x → (SubTransGetTopmostTransaction s'.pg_subtrans
          (XidFromFullTransactionId s'.transactionXmin) (XidFromFullTransactionId x)).isSome)) ∧
    ∀ (b : XactView) (xid : ℕ) (snapshot : SnapshotData),
      XidInMVCCSnapshot b xid (RestoreSnapshot (SerializeSnapshot snapshot)) =
        XidInMVCCSnapshot b xid snapshot := by
  refine ⟨?_, restored_same⟩
  intro s s' static curcid h hrun hheld b x hx hother hroll
  have hexact := h.exact curcid hrun hheld b hx hother hroll
  exact ⟨hexact, (restored_same _ _ _).trans hexact, h.lookup hrun hx⟩

/-! ### A rolled back subtransaction -/

/-- A new cluster with two backends. -/
def newCluster : XactState where
  arrayP :=
    { procs := [default, default], mypgxactoff := 0, MyDatabaseId := 1, latestCompletedXid := 2,
      oldestXid := 3, replication_slot_xmin := 0, replication_slot_catalog_xmin := 0,
      recoveryInProgress := false, knownAssignedXids := [], lastOverflowedXid := 0 }
  nextXid := 3
  xactCompletionCount := 1
  pg_subtrans := fun _ => 0
  transactionXmin := 3
  oldest := 3
  live := fun _ => false
  parent := fun _ => 0
  top := id

/-- Shared memory of a new cluster agrees with what happened. -/
theorem newCluster_inv : newCluster.Inv where
  stop := by decide
  normal := by decide
  next_lt := by decide
  recovery := rfl
  flags i proc hproc := by
    have hproc := mem_of_getElem? hproc
    rcases mem_pair.mp hproc with rfl | rfl <;> exact ⟨rfl, rfl⟩
  latest_lt := by decide
  latest_normal := by decide
  oldest_le := by decide
  oldest_le_latest := by decide
  xmin_normal := by decide
  xmin_le := by decide
  live := nofun
  completed x hx _ := by
    have hlo : 3 ≤ x := hx.oldest_le
    have hhi : x < 3 := hx.lt_next
    omega
  backend i proc hproc := by
    have hproc := mem_of_getElem? hproc
    rcases mem_pair.mp hproc with rfl | rfl <;> exact .inl ⟨rfl, rfl, rfl⟩
  distinct i j p q hp _ _ hne := by
    have hp := mem_of_getElem? hp
    rcases mem_pair.mp hp with rfl | rfl <;> exact absurd rfl hne
  top := nofun
  top_le x _ _ := le_refl x
  parent := nofun
  history x hx _ := by
    have hlo : 3 ≤ x := hx.oldest_le
    have hhi : x < 3 := hx.lt_next
    omega
  subtrans x hx _ := by
    have hlo : 3 ≤ x := hx.oldest_le
    have hhi : x < 3 := hx.lt_next
    omega

/-- The second backend has started a transaction and a subtransaction of it. -/
def subStarted : XactState := (newCluster.effect (.assignXid 1)).effect (.assignSubXid 1 3)

/-- It has rolled the subtransaction back. -/
def subRolledBack : XactState := subStarted.effect (.abortSub 1 4 [])

/-- The subtransaction is rolled back in one step. -/
theorem subStarted_rollBack : subStarted.Step subRolledBack := by
  refine ⟨.abortSub 1 4 [], ⟨⟨_, rfl, by decide⟩, ?_, ?_⟩, rfl⟩
  · intro x hx
    rw [mem_singleton.mp hx]
    decide
  · intro x _ hpar
    -- nothing was started below the subtransaction
    have hx : subStarted.parent x = 4 := mem_singleton.mp hpar
    by_cases hsub : x = 4
    · exact mem_singleton.mpr hsub
    · by_cases htop : x = 3
      · rw [htop] at hx
        cases hx
      · have hnext : (newCluster.effect (.assignXid 1)).nextXid = 4 := by decide
        have hlater : subStarted.parent x = (newCluster.effect (.assignXid 1)).parent x :=
          (assign_of_ne _ _ _ _ (by rwa [hnext])).2.1
        have hzero : (newCluster.effect (.assignXid 1)).parent x = 0 :=
          (assign_of_ne _ _ _ _ htop).2.1
        omega

/-- The states are reached, and no snapshot was taken before. -/
theorem subStarted_history :
    SnapshotHistory subStarted ⟨snapshot, 0⟩ ∧ SnapshotHistory subRolledBack ⟨snapshot, 0⟩ := by
  have hfirst : SnapshotHistory (newCluster.effect (.assignXid 1)) ⟨snapshot, 0⟩ :=
    .step (.start snapshot newCluster_inv)
      ⟨.assignXid 1, ⟨⟨by decide, by decide⟩, default, rfl, rfl⟩, rfl⟩
  have hsec : SnapshotHistory subStarted ⟨snapshot, 0⟩ :=
    .step hfirst ⟨.assignSubXid 1 3, ⟨⟨by decide, by decide⟩, by decide, _, rfl, by decide⟩, rfl⟩
  exact ⟨hsec, .step hsec subStarted_rollBack⟩

/-- A backend that is told nothing about outcomes. -/
def idleView : XactView where
  state := fun _ => .inProgress
  current := fun _ => false
  topmost := id
  members := fun _ _ => []
  mayHint := fun _ => false
  realCmin := id
  realCmax := id

/-- A subtransaction that was rolled back is not running for a snapshot, although its top
transaction is, and its id is before `xmax`. -/
theorem rolledBack_not_in_snapshot :
    SnapshotHistory subRolledBack ⟨buildSnapshot newCluster.arrayP 0, 0⟩ ∧
      subRolledBack.Assigned 4 ∧ subRolledBack.OfOther 4 ∧
      subRolledBack.live (subRolledBack.top 4) = true ∧
      XidInMVCCSnapshot (subRolledBack.view idleView) (XidFromFullTransactionId 4)
        (GetSnapshotData subRolledBack ⟨buildSnapshot newCluster.arrayP 0, 0⟩ 0).snapshot =
          false := by
  refine ⟨(subStarted_history _).2, ⟨by decide, by decide, by decide⟩, ?_, by decide, by decide⟩
  intro _
  decide

/-- Its top transaction is running for the snapshot. -/
theorem snapshot_membership_exact_top :
    XidInMVCCSnapshot (subRolledBack.view idleView) (XidFromFullTransactionId 3)
      (GetSnapshotData subRolledBack ⟨buildSnapshot newCluster.arrayP 0, 0⟩ 0).snapshot = true := by
  refine ((snapshot_membership_exact.1 subRolledBack subRolledBack _ 0 (subStarted_history _).2
    .refl (by decide) idleView 3 ⟨by decide, by decide, by decide⟩ (fun _ => by decide) ?_).1).trans
    (by decide)
  rintro ⟨hover, -⟩
  cases hover

/-! ### Later snapshots -/

namespace XactState

variable {s s' : XactState} {snapshot : SnapshotData} {x : ℕ}

/-- A snapshot that is taken in one state, and still held in a later one. -/
def Taken (s s' : XactState) (snapshot : SnapshotData) : Prop :=
  ∃ static curcid, SnapshotHistory s static ∧
    snapshot = (GetSnapshotData s static curcid).snapshot ∧
    s.Run s' ∧ s'.transactionXmin ≤ s.arrayP.full snapshot.xmin

/-- A transaction that is over stays so. -/
theorem Run.over (h : s.Inv) (hrun : s.Run s') (hx : x < s.nextXid) (hover : s.live x = false) :
    s'.live x = false := by
  induction hrun with
  | refl => exact hover
  | tail hrun hstep ih =>
    have hlt := lt_of_lt_of_le hx (Run.keeps h hrun).next
    obtain ⟨e, -, rfl⟩ := hstep
    cases e with
    | assignXid pgxactoff | assignSubXid pgxactoff parent =>
      exact (assign_of_ne _ _ _ _ hlt.ne).1.trans ih
    | abortSub pgxactoff xid children | endTransaction pgxactoff xid children =>
      simp [effect, complete, ih]
    | truncate transactionXmin pg_subtrans | freeze oldest => exact ih

/-- `xmax` is behind the latest completed transaction, also if a snapshot is used again. -/
theorem SnapshotHistory.latest_lt {static : StaticSnapshot} (h : SnapshotHistory s static)
    (curcid : ℕ) : s.arrayP.latestCompletedXid <
      s.arrayP.full (GetSnapshotData s static curcid).snapshot.xmax := by
  obtain ⟨⟨s₀, xmin, xmax, hinv, hrun, hcount₀, hbuilt⟩, hcount⟩ :=
    getSnapshotData_built h.inv.1 h.inv.2 curcid
  have hnone := Run.noneCompleted hinv hrun (hcount.symm.trans hcount₀)
  have hlat := hbuilt.latest_lt
  have hmax := hbuilt.xmax_le s₀.nextXid hinv.latest_lt hinv.normal
  have hnext := hinv.next_lt
  have hstop := hinv.stop
  have hold := hinv.oldest_le_latest
  rw [MaxTransactionId] at hstop
  rw [ProcArray.full, hnone.latest, hbuilt.xmax_id.relativeTo (by omega) (by omega)]
  omega

/-- **A snapshot takes a transaction for running exactly if its top transaction is.** -/
theorem Taken.running (h : Taken s s' snapshot) (b : XactView) (hx : s.Assigned x)
    (hother : s.OfOther x) (hroll : ¬ s.RolledBack x) :
    XidInMVCCSnapshot (s'.view b) (XidFromFullTransactionId x) snapshot = s.live (s.top x) := by
  obtain ⟨static, curcid, h, rfl, hrun, hheld⟩ := h
  have hlat := h.latest_lt curcid
  rw [h.exact curcid hrun hheld b hx hother hroll]
  cases htop : s.live (s.top x) with
  | true => simp
  | false =>
    have hover : s.live x = false := by
      rw [← Bool.not_eq_true]
      intro hlive
      rw [(h.inv.1.top x hlive).1] at htop
      cases htop
    have hle := h.inv.1.completed x hx hover
    simp only [Bool.false_eq_true, false_or, decide_eq_false_iff_not]
    omega

end XactState

namespace XactState

variable {s s' : XactState} {snapshot : SnapshotData} {x : ℕ}

/-- What a snapshot takes for running belongs to a live top transaction. That holds for every
transaction, also for one of the backend itself and for a subtransaction that was rolled back. -/
theorem Taken.top_live (h : Taken s s' snapshot) (b : XactView) (hx : s.Assigned x)
    (hrunning : XidInMVCCSnapshot (s'.view b) (XidFromFullTransactionId x) snapshot = true) :
    s.live (s.top x) = true := by
  rw [← Bool.not_eq_false]
  intro hover
  -- both exceptions are about a live top transaction
  have hother : s.OfOther x := fun hlive => absurd (hover.symm.trans hlive) Bool.false_ne_true
  have hroll : ¬ s.RolledBack x := fun hroll => absurd (hover.symm.trans hroll.2) Bool.false_ne_true
  rw [h.running b hx hother hroll, hover] at hrunning
  cases hrunning

end XactState

/-- **A tree of transactions becomes visible as a whole, and stays visible.** If a snapshot takes
any transaction of a tree for running, then every snapshot that the backend has taken before takes
every transaction of the tree for running that had an id then and was not rolled back. -/
theorem running_before {s s' t t' : XactState} {snapshot snapshot' : SnapshotData}
    (h : Taken s s' snapshot) (hrun : s.Run t) (h' : Taken t t' snapshot') (b b' : XactView)
    {x y : ℕ} (hx : s.Assigned x) (hother : s.OfOther x) (hroll : ¬ s.RolledBack x)
    (hy : t.Assigned y) (htop : t.top y = s.top x)
    (hrunning : XidInMVCCSnapshot (t'.view b') (XidFromFullTransactionId y) snapshot' = true) :
    XidInMVCCSnapshot (s'.view b) (XidFromFullTransactionId x) snapshot = true := by
  have hinv : s.Inv := by
    obtain ⟨_, _, h, -⟩ := h
    exact h.inv.1
  have hlive := h'.top_live b' hy hrunning
  rw [htop] at hlive
  rw [h.running b hx hother hroll, ← Bool.not_eq_false]
  intro hover
  have hlt := lt_of_le_of_lt (hinv.top_le x hx.lt_next hx.normal) hx.lt_next
  rw [hrun.over hinv hlt hover] at hlive
  cases hlive

/-- A snapshot is taken while a subtransaction runs, and one after it was rolled back. The second
takes the top transaction for running, so the first takes the subtransaction for running, with the
records of the later state too. -/
theorem running_before_rollback : ∃ snapshot snapshot',
    Taken subStarted subRolledBack snapshot ∧ Taken subRolledBack subRolledBack snapshot' ∧
      XidInMVCCSnapshot (subRolledBack.view idleView) (XidFromFullTransactionId 3) snapshot' =
        true ∧
      XidInMVCCSnapshot (subRolledBack.view idleView) (XidFromFullTransactionId 4) snapshot' =
        false ∧
      XidInMVCCSnapshot (subRolledBack.view idleView) (XidFromFullTransactionId 4) snapshot =
        true := by
  have hrun : subStarted.Run subRolledBack := .single subStarted_rollBack
  have h : Taken subStarted subRolledBack _ :=
    ⟨⟨buildSnapshot newCluster.arrayP 0, 0⟩, 0, (subStarted_history _).1, rfl, hrun, by decide⟩
  have h' : Taken subRolledBack subRolledBack _ :=
    ⟨⟨buildSnapshot newCluster.arrayP 0, 0⟩, 0, (subStarted_history _).2, rfl, .refl, by decide⟩
  have hx : subStarted.Assigned 4 := ⟨by decide, by decide, by decide⟩
  have hroll : ¬ subStarted.RolledBack 4 := fun h => absurd h.1 (by decide)
  have hy : subRolledBack.Assigned 3 := ⟨by decide, by decide, by decide⟩
  exact ⟨_, _, h, h', by decide, by decide,
    running_before h hrun h' idleView idleView hx (fun _ => by decide) hroll hy rfl (by decide)⟩

end FdPostgres
