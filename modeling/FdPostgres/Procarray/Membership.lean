import FdPostgres.Procarray.Subtrans

/-!
# Membership in a Snapshot

A snapshot is to answer, at any later time, which transactions were running when it was taken. It
lists the top transactions that were, and their subtransactions too unless a backend had too many of
them; then the top transaction of an id is looked up first.

* `snapshotLoop_spec`: what the loop of `GetSnapshotData` collects.
* `XactState.Built`: what a snapshot lists, in terms of what happened.
* `XactState.Built.exact`: **the answer is exact**, with the records of any later state.
-/

namespace FdPostgres

open List

/-! ### The loop -/

/-- The backends whose transactions a snapshot lists. -/
def Listed (mypgxactoff xmax : ℕ) (proc : PGPROC × ℕ) : Prop :=
  proc.1.xid ≠ InvalidTransactionId ∧ proc.2 ≠ mypgxactoff ∧
    NormalTransactionIdPrecedes proc.1.xid xmax = true

section Loop

variable {mypgxactoff xmax : ℕ} {l : SnapshotLoop} {proc : PGPROC × ℕ}

/-- A backend that is not listed. -/
theorem snapshotProc_of_not_listed (h : ¬ Listed mypgxactoff xmax proc) :
    snapshotProc mypgxactoff xmax l proc = l := by
  simp only [snapshotProc]
  by_cases hxid : proc.1.xid = InvalidTransactionId
  · rw [if_pos hxid]
  · by_cases hoff : proc.2 = mypgxactoff
    · rw [if_neg hxid, if_pos hoff]
    · have hlate : (!NormalTransactionIdPrecedes proc.1.xid xmax) = true := by
        rw [Bool.not_eq_true', ← Bool.not_eq_true]
        exact fun hprec => h ⟨hxid, hoff, hprec⟩
      rw [if_neg hxid, if_neg hoff, if_pos hlate]

/-- A backend that is listed. -/
theorem snapshotProc_of_listed (h : Listed mypgxactoff xmax proc)
    (hflags : proc.1.inVacuum = false ∧ proc.1.inLogicalDecoding = false) :
    (snapshotProc mypgxactoff xmax l proc).xmin =
        (if NormalTransactionIdPrecedes proc.1.xid l.xmin then proc.1.xid else l.xmin) ∧
      (snapshotProc mypgxactoff xmax l proc).xip = l.xip ++ [proc.1.xid] ∧
      (snapshotProc mypgxactoff xmax l proc).suboverflowed =
        (l.suboverflowed || proc.1.overflowed) ∧
      ((snapshotProc mypgxactoff xmax l proc).suboverflowed = false →
        (snapshotProc mypgxactoff xmax l proc).subxip = l.subxip ++ proc.1.subxids) := by
  obtain ⟨hxid, hoff, hprec⟩ := h
  simp only [snapshotProc, if_neg hxid, if_neg hoff, hprec, hflags.1, hflags.2, Bool.not_true,
    Bool.false_eq_true]
  cases hover : l.suboverflowed with
  | true => exact ⟨rfl, rfl, rfl, Bool.noConfusion⟩
  | false =>
    cases hproc : proc.1.overflowed with
    | true => exact ⟨rfl, rfl, rfl, Bool.noConfusion⟩
    | false => exact ⟨rfl, rfl, rfl, fun _ => rfl⟩

variable {procs : List (PGPROC × ℕ)}

/-- **What the loop collects**: the ids of the listed backends, and unless one of them has too many
subtransactions, those too. -/
theorem snapshotLoop_spec (mypgxactoff xmax : ℕ)
    (hflags : ∀ proc ∈ procs, proc.1.inVacuum = false ∧ proc.1.inLogicalDecoding = false) :
    ∀ l : SnapshotLoop, let r := procs.foldl (snapshotProc mypgxactoff xmax) l
      (∀ xid, xid ∈ r.xip ↔ xid ∈ l.xip ∨
        ∃ proc ∈ procs, Listed mypgxactoff xmax proc ∧ xid = proc.1.xid) ∧
      (r.suboverflowed = false → l.suboverflowed = false ∧
        (∀ proc ∈ procs, Listed mypgxactoff xmax proc → proc.1.overflowed = false) ∧
        ∀ xid, xid ∈ r.subxip ↔ xid ∈ l.subxip ∨
          ∃ proc ∈ procs, Listed mypgxactoff xmax proc ∧ xid ∈ proc.1.subxids) := by
  induction procs with
  | nil => exact fun l => ⟨by simp, fun h => ⟨h, by simp, by simp⟩⟩
  | cons proc procs ih =>
    intro l
    obtain ⟨hxip, hsubxip⟩ := ih (fun proc hproc => hflags proc (mem_cons_of_mem _ hproc))
      (snapshotProc mypgxactoff xmax l proc)
    simp only [foldl_cons, exists_mem_cons_iff, forall_mem_cons]
    by_cases hlist : Listed mypgxactoff xmax proc
    · obtain ⟨-, hxip', hover', hsubxip'⟩ :=
        snapshotProc_of_listed hlist (hflags proc mem_cons_self)
      refine ⟨?_, ?_⟩
      · intro xid
        rw [hxip, hxip', mem_append, or_assoc]
        simp [hlist]
      · intro hfits
        obtain ⟨hfits', hprocs, hmem⟩ := hsubxip hfits
        have hl := hover'.symm.trans hfits'
        rw [Bool.or_eq_false_iff] at hl
        refine ⟨hl.1, ⟨fun _ => hl.2, hprocs⟩, ?_⟩
        intro xid
        rw [hmem, hsubxip' hfits', mem_append, or_assoc]
        simp [hlist]
    · rw [snapshotProc_of_not_listed hlist] at hxip hsubxip ⊢
      simp only [hlist, false_and, false_or, false_implies, true_and]
      exact ⟨hxip, hsubxip⟩

/-- The `xmin` of the loop is a lower bound of the ids of the listed backends. -/
theorem snapshotLoop_xmin (mypgxactoff xmax : ℕ) {W : IdWindow}
    (hflags : ∀ proc ∈ procs, proc.1.inVacuum = false ∧ proc.1.inLogicalDecoding = false)
    (hids : ∀ proc ∈ procs, W.MayHold proc.1.xid) : ∀ (l : SnapshotLoop) (m : ℕ), W.Holds l.xmin m →
      ∃ y, W.Holds (procs.foldl (snapshotProc mypgxactoff xmax) l).xmin y ∧ y ≤ m ∧
        ∀ proc ∈ procs, Listed mypgxactoff xmax proc → ∀ x, W.Holds proc.1.xid x → y ≤ x := by
  induction procs with
  | nil =>
    exact fun l m hm => ⟨m, hm, le_rfl, fun proc hproc => nomatch hproc⟩
  | cons proc procs ih =>
    intro l m hm
    have ih := ih (fun proc hproc => hflags proc (mem_cons_of_mem _ hproc))
      fun proc hproc => hids proc (mem_cons_of_mem _ hproc)
    simp only [foldl_cons, forall_mem_cons]
    by_cases hlist : Listed mypgxactoff xmax proc
    · obtain ⟨hxmin, -, -, -⟩ := snapshotProc_of_listed (l := l) hlist (hflags proc mem_cons_self)
      rcases hids proc mem_cons_self with hnone | ⟨x, hx⟩
      · exact absurd hnone hlist.1
      · have hlo := hx.lo
        have hhi := hx.hi
        have hmlo := hm.lo
        have hmhi := hm.hi
        have hstop := W.stop_lt
        have hprec := hx.id.normalPrecedes hm.id (by omega) (by omega)
        have hnext : ∃ z, W.Holds (snapshotProc mypgxactoff xmax l proc).xmin z ∧ z ≤ m ∧
            z ≤ x := by
          rw [hxmin, hprec]
          by_cases hlt : (x : ℤ) < m
          · rw [decide_eq_true hlt]
            exact ⟨x, hx, by omega, le_rfl⟩
          · rw [decide_eq_false hlt]
            exact ⟨m, hm, le_rfl, by omega⟩
        obtain ⟨z, hz, hzm, hzx⟩ := hnext
        obtain ⟨y, hy, hyz, hprocs⟩ := ih _ z hz
        refine ⟨y, hy, hyz.trans hzm, ⟨fun _ x' hx' => ?_, hprocs⟩⟩
        rw [hx'.unique hx]
        exact hyz.trans hzx
    · rw [snapshotProc_of_not_listed hlist]
      obtain ⟨y, hy, hym, hprocs⟩ := ih l m hm
      exact ⟨y, hy, hym, ⟨fun h => absurd h hlist, hprocs⟩⟩

end Loop

namespace XactState

variable {s : XactState}

/-! ### What a snapshot lists -/

/-- **What a snapshot lists**, in terms of what happened: the live top transactions of the other
backends before `xmax`, and unless there were too many, their subtransactions. -/
structure Built (s : XactState) (snapshot : SnapshotData) (xmin xmax : ℕ) : Prop where
  xmin_id : IdOf snapshot.xmin xmin
  xmax_id : IdOf snapshot.xmax xmax
  recovery : snapshot.takenDuringRecovery = false
  oldest_le : s.oldest ≤ xmin
  xmin_le : xmin ≤ xmax
  latest_lt : s.arrayP.latestCompletedXid < xmax
  xmax_le : ∀ x, s.arrayP.latestCompletedXid < x →
    FirstNormalTransactionId ≤ XidFromFullTransactionId x → xmax ≤ x
  xmin_le_top : ∀ x, s.live x = true → s.top x = x →
    XidFromFullTransactionId x ≠ s.arrayP.MyProc.xid → x < xmax → xmin ≤ x
  xip : ∀ xid, xid ∈ snapshot.xip ↔ ∃ x, s.live x = true ∧ s.top x = x ∧
    XidFromFullTransactionId x ≠ s.arrayP.MyProc.xid ∧ x < xmax ∧ xid = XidFromFullTransactionId x
  subxip : snapshot.suboverflowed = false → ∀ xid, xid ∈ snapshot.subxip ↔
    ∃ x, s.live x = true ∧ s.top x ≠ x ∧ XidFromFullTransactionId (s.top x) ≠ s.arrayP.MyProc.xid ∧
      s.top x < xmax ∧ xid = XidFromFullTransactionId x

/-- The ids in use. -/
def Inv.window (h : s.Inv) : IdWindow := ⟨s.oldest, s.nextXid, h.stop, h.normal, h.next_lt⟩

variable {x xmax : ℕ} {snapshot : SnapshotData} {xmin : ℕ}

theorem Inv.holds (h : s.Inv) (hx : s.Assigned x) : h.window.Holds (XidFromFullTransactionId x) x :=
  ⟨idOf hx.normal, hx.oldest_le, hx.lt_next.le⟩

/-- The listed backends are those with a live top transaction before `xmax`, apart from the own
one. -/
theorem Inv.listed_iff (h : s.Inv) (hxmax : h.window.Holds s.arrayP.afterLatest xmax)
    {proc : PGPROC} {i : ℕ} (hproc : s.arrayP.procs[i]? = some proc) {top : ℕ}
    (htop : s.live top = true) (hxid : proc.xid = XidFromFullTransactionId top) :
    Listed s.arrayP.mypgxactoff s.arrayP.afterLatest (proc, i) ↔
      XidFromFullTransactionId top ≠ s.arrayP.MyProc.xid ∧ top < xmax := by
  have hid := h.holds (h.live top htop).1
  have hlo := hid.lo
  have hhi := hid.hi
  have hlo' := hxmax.lo
  have hhi' := hxmax.hi
  have hstop := h.window.stop_lt
  have hprec := hid.id.normalPrecedes hxmax.id (by omega) (by omega)
  have hmine : i ≠ s.arrayP.mypgxactoff ↔ XidFromFullTransactionId top ≠ s.arrayP.MyProc.xid := by
    constructor
    · intro hne heq
      rw [ProcArray.MyProc] at heq
      cases hmy : s.arrayP.procs[s.arrayP.mypgxactoff]? with
      | none =>
        rw [hmy] at heq
        exact h.word_ne htop heq
      | some mine =>
        rw [hmy] at heq
        refine hne (h.distinct i _ proc mine hproc hmy (hxid.trans heq) ?_)
        rw [hxid]
        exact h.word_ne htop
    · rintro hne rfl
      rw [ProcArray.MyProc, hproc] at hne
      exact hne hxid.symm
  simp only [Listed, hxid, hprec, hmine, ne_eq, h.word_ne htop, not_false_eq_true, true_and,
    decide_eq_true_eq]
  exact and_congr_right fun _ => Int.ofNat_lt

/-- A backend shows an id in use, or none. -/
theorem Inv.mayHold (h : s.Inv) {i : ℕ} {proc : PGPROC} (hproc : s.arrayP.procs[i]? = some proc) :
    h.window.MayHold proc.xid := by
  rcases h.backend i proc hproc with ⟨hnone, -, -⟩ | ⟨top, hlive, -, hxid, -⟩
  · exact .inl hnone
  · rw [hxid]
    exact .inr ⟨top, h.holds (h.live top hlive).1⟩

/-- The id after the latest completed one. -/
theorem Inv.afterLatest (h : s.Inv) : ∃ xmax, h.window.Holds s.arrayP.afterLatest xmax ∧
    s.arrayP.latestCompletedXid < xmax ∧ ∀ x, s.arrayP.latestCompletedXid < x →
      FirstNormalTransactionId ≤ XidFromFullTransactionId x → xmax ≤ x := by
  obtain ⟨xmax, hid, hlt, -, hmin⟩ := IdOf.advance s.arrayP.latestCompletedXid
  exact ⟨xmax, ⟨hid, h.oldest_le_latest.trans hlt, hmin _ h.latest_lt h.normal⟩, hlt, hmin⟩

/-- **A snapshot lists the running transactions.** -/
theorem Inv.built (h : s.Inv) (curcid : ℕ) :
    ∃ xmin xmax, s.Built (buildSnapshot s.arrayP curcid) xmin xmax := by
  obtain ⟨xmax, hxmax, hlat, hmin⟩ := h.afterLatest
  have hmem : ∀ {proc : PGPROC} {i : ℕ}, (proc, i) ∈ s.arrayP.procs.zipIdx →
      s.arrayP.procs[i]? = some proc := fun hproc => mem_zipIdx_iff_getElem?.mp hproc
  have hflags : ∀ proc ∈ s.arrayP.procs.zipIdx,
      proc.1.inVacuum = false ∧ proc.1.inLogicalDecoding = false :=
    fun proc hproc => h.flags _ _ (hmem hproc)
  -- the loop starts with the own transaction or `xmax`
  obtain ⟨m, hm, hmle⟩ : ∃ m, h.window.Holds (initialXmin s.arrayP) m ∧ m ≤ xmax := by
    rw [initialXmin]
    split_ifs with hmine
    · rw [Bool.and_eq_true] at hmine
      cases hmy : s.arrayP.procs[s.arrayP.mypgxactoff]? with
      | none =>
        rw [ProcArray.MyProc, hmy] at hmine
        cases hmine.1
      | some mine =>
        have hxid : s.arrayP.MyProc.xid = mine.xid := by
          rw [ProcArray.MyProc, hmy]
          rfl
        rw [hxid] at hmine ⊢
        rcases h.mayHold hmy with hnone | ⟨x, hx⟩
        · rw [hnone] at hmine
          cases hmine.1
        · have hlo := hx.lo
          have hhi := hx.hi
          have hlo' := hxmax.lo
          have hhi' := hxmax.hi
          have hstop := h.window.stop_lt
          have hprec := hx.id.normalPrecedes hxmax.id (by omega) (by omega)
          rw [hprec, decide_eq_true_eq] at hmine
          exact ⟨x, hx, by omega⟩
    · exact ⟨xmax, hxmax, le_rfl⟩
  obtain ⟨y, hy, hym, hlower⟩ := snapshotLoop_xmin s.arrayP.mypgxactoff s.arrayP.afterLatest hflags
    (fun proc hproc => h.mayHold (hmem hproc)) ⟨initialXmin s.arrayP, [], [], false⟩ m hm
  obtain ⟨hxip, hsubxip⟩ := snapshotLoop_spec s.arrayP.mypgxactoff s.arrayP.afterLatest hflags
    ⟨initialXmin s.arrayP, [], [], false⟩
  -- a listed backend has a live top transaction, and the other way round
  have hlisted : ∀ {proc : PGPROC} {i : ℕ}, s.arrayP.procs[i]? = some proc →
      Listed s.arrayP.mypgxactoff s.arrayP.afterLatest (proc, i) → ∃ top, s.live top = true ∧
        s.top top = top ∧ proc.xid = XidFromFullTransactionId top ∧
        XidFromFullTransactionId top ≠ s.arrayP.MyProc.xid ∧ top < xmax := by
    intro proc i hproc hlisted
    rcases h.backend i proc hproc with ⟨hnone, -, -⟩ | ⟨top, hlive, htop, hxid, -⟩
    · exact absurd hnone hlisted.1
    · exact ⟨top, hlive, htop, hxid, (h.listed_iff hxmax hproc hlive hxid).mp hlisted⟩
  have hshown : ∀ x, s.live x = true →
      XidFromFullTransactionId (s.top x) ≠ s.arrayP.MyProc.xid → s.top x < xmax →
      ∃ (i : ℕ) (proc : PGPROC), s.arrayP.procs[i]? = some proc ∧
        proc.xid = XidFromFullTransactionId (s.top x) ∧
        Listed s.arrayP.mypgxactoff s.arrayP.afterLatest (proc, i) := by
    intro x hx hmine hbef
    obtain ⟨htlive, -, -, i, proc, hproc, hxid⟩ := h.top x hx
    exact ⟨i, proc, hproc, hxid, (h.listed_iff hxmax hproc htlive hxid).mpr ⟨hmine, hbef⟩⟩
  rw [buildSnapshot, h.recovery]
  refine ⟨y, xmax, hy.id, hxmax.id, rfl, hy.lo, hym.trans hmle, hlat, hmin, ?_, ?_, ?_⟩
  · intro x hx htop hmine hbef
    obtain ⟨i, proc, hproc, hxid, hlist⟩ := hshown x hx (by rwa [htop]) (by rwa [htop])
    refine hlower (proc, i) (mem_zipIdx_iff_getElem?.mpr hproc) hlist x ?_
    rw [hxid, htop]
    exact h.holds (h.live x hx).1
  · intro xid
    refine (hxip xid).trans ?_
    constructor
    · rintro (hnil | ⟨⟨proc, i⟩, hproc, hlist, rfl⟩)
      · cases hnil
      · obtain ⟨top, hlive, htop, hxid, hmine, hbef⟩ := hlisted (hmem hproc) hlist
        exact ⟨top, hlive, htop, hmine, hbef, hxid⟩
    · rintro ⟨x, hx, htop, hmine, hbef, rfl⟩
      obtain ⟨i, proc, hproc, hxid, hlist⟩ := hshown x hx (by rwa [htop]) (by rwa [htop])
      refine .inr ⟨(proc, i), mem_zipIdx_iff_getElem?.mpr hproc, hlist, ?_⟩
      rw [hxid, htop]
  · intro hfits xid
    obtain ⟨-, hprocs, hmemsub⟩ := hsubxip hfits
    refine (hmemsub xid).trans ?_
    constructor
    · rintro (hnil | ⟨⟨proc, i⟩, hproc, hlist, hsub⟩)
      · cases hnil
      · obtain ⟨top, hlive, htop, hxid, hmine, hbef⟩ := hlisted (hmem hproc) hlist
        obtain ⟨x, hx, rfl, hne, rfl⟩ :=
          (((h.backend_top (hmem hproc) hlive hxid).2 (hprocs _ hproc hlist)).2 xid).mp hsub
        exact ⟨x, hx, hne.symm, hmine, hbef, rfl⟩
    · rintro ⟨x, hx, hne, hmine, hbef, rfl⟩
      obtain ⟨i, proc, hproc, hxid, hlist⟩ := hshown x hx hmine hbef
      have hmem' : (proc, i) ∈ s.arrayP.procs.zipIdx := mem_zipIdx_iff_getElem?.mpr hproc
      refine .inr ⟨(proc, i), hmem', hlist, ?_⟩
      exact (((h.backend_top hproc (h.top x hx).1 hxid).2 (hprocs _ hmem' hlist)).2 _).mpr
        ⟨x, hx, rfl, hne.symm, rfl⟩

/-! ### The answer -/

/-- What a backend is told when it looks up top transactions in a state. -/
def view (s : XactState) (b : XactView) : XactView :=
  { b with
    topmost := fun xid => (SubTransGetTopmostTransaction s.pg_subtrans
      (XidFromFullTransactionId s.transactionXmin) xid).getD InvalidTransactionId }

variable (h : s.Inv) (hbuilt : s.Built snapshot xmin xmax)

include h hbuilt

/-- A snapshot that lists the subtransactions lists the live transactions of other backends. -/
theorem Built.listed_contains
    (hfits : snapshot.suboverflowed = false) (hx : s.Assigned x) (hbef : x < xmax)
    (hother : s.live x = true → XidFromFullTransactionId (s.top x) ≠ s.arrayP.MyProc.xid) :
    (snapshot.subxip.contains (XidFromFullTransactionId x) ||
      snapshot.xip.contains (XidFromFullTransactionId x)) = s.live x := by
  rw [Bool.eq_iff_iff, Bool.or_eq_true, contains_iff_mem, contains_iff_mem,
    hbuilt.subxip hfits, hbuilt.xip]
  have hsame : ∀ y, s.live y = true → XidFromFullTransactionId x = XidFromFullTransactionId y →
      x = y := by
    intro y hy heq
    have hy := (h.live y hy).1
    exact h.word_inj hx.oldest_le hx.lt_next.le hy.oldest_le hy.lt_next.le heq
  constructor
  · rintro (⟨y, hy, -, -, -, heq⟩ | ⟨y, hy, -, -, -, heq⟩)
    · rw [hsame y hy heq]
      exact hy
    · rw [hsame y hy heq]
      exact hy
  · intro hlive
    have htople := (h.top x hlive).2.2.1
    by_cases htop : s.top x = x
    · refine .inr ⟨x, hlive, htop, ?_, hbef, rfl⟩
      have hmine := hother hlive
      rwa [htop] at hmine
    · exact .inl ⟨x, hlive, htop, hother hlive, lt_of_le_of_lt htople hbef, rfl⟩

/-- A snapshot that does not list the subtransactions finds the live top transactions of other
backends. -/
theorem Built.topmost_contains {s' : XactState}
    (hrun : s.Run s') (hheld : s'.transactionXmin ≤ xmin) (b : XactView) (hx : s.Assigned x)
    (hafter : xmin ≤ x)
    (hother : s.live (s.top x) = true → XidFromFullTransactionId (s.top x) ≠ s.arrayP.MyProc.xid)
    (hlive : s.live (s.top x) = true → s.live x = true)
    (hreach : s.live (s.top x) = true → xmin ≤ s.top x) (hbef : x < xmax) :
    (if TransactionIdPrecedes ((s'.view b).topmost (XidFromFullTransactionId x)) snapshot.xmin then
        false else snapshot.xip.contains ((s'.view b).topmost (XidFromFullTransactionId x))) =
      s.live (s.top x) := by
  have hinv' := Run.inv h hrun
  have hstop := h.stop
  have hxhi := hx.lt_next
  have hkeeps := Run.keeps h hrun
  have hxmin := h.oldest_le.trans hkeeps.xmin
  rw [MaxTransactionId] at hstop
  obtain ⟨y, hy, hyle, hynear, hytop, hylive⟩ :=
    h.topmostLoop hkeeps.xmin hinv'.xmin_normal hkeeps.subtrans (2 ^ 32) x
      (XidFromFullTransactionId x) hx (hheld.trans hafter) (by omega)
  have htopmost : (s'.view b).topmost (XidFromFullTransactionId x) =
      XidFromFullTransactionId y := by
    simp only [view, SubTransGetTopmostTransaction, hy, Option.getD_some]
  rw [htopmost]
  cases htop : s.live (s.top x) with
  | true =>
    obtain ⟨-, htoptop, htople, -⟩ := h.top x (hlive htop)
    have hge := hreach htop
    have hasg := (h.live _ htop).1
    rw [hylive (hlive htop) (hheld.trans hge),
      (idOf hasg.normal).precedes hbuilt.xmin_id (by omega) (by omega),
      decide_eq_false (by omega), if_neg Bool.false_ne_true, contains_iff_mem, hbuilt.xip]
    exact ⟨_, htop, htoptop, hother htop, lt_of_le_of_lt htople hbef, rfl⟩
  | false =>
    have hnot : snapshot.xip.contains (XidFromFullTransactionId y) = false := by
      rw [← Bool.not_eq_true, contains_iff_mem, hbuilt.xip]
      rintro ⟨z, hz, hztop, -, -, heq⟩
      -- the id that was found would be a live top transaction
      have hzassigned := (h.live z hz).1
      have hzlo := hzassigned.oldest_le
      have hzhi := hzassigned.lt_next
      have hsame : y = z := by
        simp only [XidFromFullTransactionId] at heq
        omega
      rw [hsame, hztop] at hytop
      rw [← hytop, hz] at htop
      cases htop
    rw [hnot, ite_self]

/-- **The answer is exact**, with the records of any later state in which the snapshot is still
held: a transaction is running for the snapshot exactly if its top transaction was live when the
snapshot was taken, or it is not before `xmax`. -/
theorem Built.exact {s' : XactState}
    (hrun : s.Run s') (hheld : s'.transactionXmin ≤ xmin) (b : XactView) (hx : s.Assigned x)
    (hother : s.live (s.top x) = true → XidFromFullTransactionId (s.top x) ≠ s.arrayP.MyProc.xid)
    (hroll : s.live x = false → s.live (s.top x) = false) :
    XidInMVCCSnapshot (s'.view b) (XidFromFullTransactionId x) snapshot =
      decide (s.live (s.top x) = true ∨ xmax ≤ x) := by
  have hid := idOf hx.normal
  have hxlo := hx.oldest_le
  have hxhi := hx.lt_next
  have hlo := hbuilt.oldest_le
  have hle := hbuilt.xmin_le
  have hhi := hbuilt.xmax_le s.nextXid h.latest_lt h.normal
  have hstop := h.stop
  rw [MaxTransactionId] at hstop
  have hprec := hid.precedes hbuilt.xmin_id (by omega) (by omega)
  have hfol := hid.followsOrEquals hbuilt.xmax_id (by omega) (by omega)
  -- a transaction with a live top transaction is live, and not before `xmin`
  have hlive : s.live (s.top x) = true → s.live x = true := by
    intro htop
    cases hxlive : s.live x with
    | true => rfl
    | false => exact absurd (htop.symm.trans (hroll hxlive)) (by decide)
  have hxmin : s.live (s.top x) = true → x < xmax → xmin ≤ s.top x := by
    intro htop hbef
    obtain ⟨-, htoptop, htople, -⟩ := h.top x (hlive htop)
    exact hbuilt.xmin_le_top _ htop htoptop (hother htop) (lt_of_le_of_lt htople hbef)
  rw [XidInMVCCSnapshot, hprec, hfol, hbuilt.recovery]
  by_cases hbef : x < xmin
  · have hnot : ¬ (s.live (s.top x) = true ∨ xmax ≤ x) := by
      rintro (htop | hafter)
      · have hge := hxmin htop (by omega)
        have htople := (h.top x (hlive htop)).2.2.1
        omega
      · omega
    rw [decide_eq_true (Int.ofNat_lt.mpr hbef), if_pos rfl, decide_eq_false hnot]
  · rw [decide_eq_false (by omega), if_neg Bool.false_ne_true]
    by_cases hafter : xmax ≤ x
    · rw [decide_eq_true (Int.ofNat_le.mpr hafter), if_pos rfl, decide_eq_true (.inr hafter)]
    · rw [decide_eq_false (by omega)]
      simp only [hafter, or_false, Bool.decide_eq_true, Bool.not_false, if_true]
      cases hover : snapshot.suboverflowed with
      | false =>
        have hiff : s.live x = s.live (s.top x) := by
          rw [Bool.eq_iff_iff]
          exact ⟨fun hxlive => (h.top x hxlive).1, hlive⟩
        rw [← hiff]
        exact hbuilt.listed_contains h hover hx (by omega)
          fun hxlive => hother (h.top x hxlive).1
      | true =>
        exact hbuilt.topmost_contains h hrun hheld b hx (by omega) hother hlive
          (fun htop => hxmin htop (by omega)) (by omega)

end XactState

end FdPostgres
