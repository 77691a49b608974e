import FdPostgres.Procarray.Transactions

/-!
# Steps of Transactions

Every step of a transaction keeps shared memory in agreement with what happened. Two steps assign an
id and two complete transactions; each pair is one lemma about the change they have in common.

* `XactState.Inv.assign`, `XactState.Inv.complete`: the two kinds of changes.
* `removeSubxids_spec`: what is left in the cache of a backend.
* `XactState.Inv.step`: **every step keeps the agreement.**
-/

namespace FdPostgres.XactState

open List

variable {s : XactState} {pgxactoff i : ℕ} {proc : PGPROC → PGPROC} {procs : List PGPROC}
  {q p : PGPROC}

/-- The backends after one of them has changed. -/
theorem modify_procs (hp : procs[pgxactoff]? = some p)
    (hq : (procs.modify pgxactoff proc)[i]? = some q) :
    i = pgxactoff ∧ q = proc p ∨ i ≠ pgxactoff ∧ procs[i]? = some q := by
  by_cases hi : i = pgxactoff
  · rw [hi, getElem?_modify_eq, hp] at hq
    exact .inl ⟨hi, (Option.some.inj hq).symm⟩
  · rw [getElem?_modify_ne _ _ (Ne.symm hi)] at hq
    exact .inr ⟨hi, hq⟩

variable {x : ℕ}

/-- No id in use looks like the next one. -/
theorem Inv.word_ne_next (h : s.Inv) (hx : s.Assigned x) :
    XidFromFullTransactionId x ≠ XidFromFullTransactionId s.nextXid := fun heq =>
  hx.lt_next.ne (h.word_inj hx.oldest_le hx.lt_next.le (h.oldest_le.trans h.xmin_le) le_rfl heq)

/-- What a backend shows depends on the transactions of its top transaction. -/
theorem BackendOk.congr {s' : XactState} (h : s.BackendOk q)
    (hsame : ∀ t, q.xid = XidFromFullTransactionId t → ∀ x,
      s'.live x = true ∧ s'.top x = t ↔ s.live x = true ∧ s.top x = t) : s'.BackendOk q := by
  refine h.imp_right fun ⟨t, hlive, htop, hxid, hcache⟩ => ?_
  obtain ⟨hlive', htop'⟩ := (hsame t hxid t).mpr ⟨hlive, htop⟩
  refine ⟨t, hlive', htop', hxid, fun hfits => ⟨(hcache hfits).1, fun xid => ?_⟩⟩
  simp only [(hcache hfits).2, Cached, ← and_assoc, hsame t hxid]

variable {xid : ℕ}

/-- A place in the array of a backend that still shows its top transaction. -/
theorem exists_modify (hp : procs[pgxactoff]? = some p) (hq : procs[i]? = some q)
    (hxid : q.xid = xid) (hkeep : p.xid = xid → (proc p).xid = xid) :
    ∃ (j : ℕ) (r : PGPROC), (procs.modify pgxactoff proc)[j]? = some r ∧ r.xid = xid := by
  by_cases hi : pgxactoff = i
  · rw [← hi, hp, Option.some.injEq] at hq
    exact ⟨pgxactoff, proc p, (getElem?_modify_eq ..).trans (congrArg _ hp), hkeep (hq ▸ hxid)⟩
  · exact ⟨i, q, (getElem?_modify_ne _ _ hi).trans hq, hxid⟩

/-! ### Assigning an id -/

section Assign

variable {proc : PGPROC → PGPROC} {pgxactoff parent top : ℕ}

/-- A transaction other than the new one. -/
theorem assign_of_ne (proc : PGPROC → PGPROC) (pgxactoff parent top : ℕ) (hx : x ≠ s.nextXid) :
    (s.assign proc pgxactoff parent top).live x = s.live x ∧
      (s.assign proc pgxactoff parent top).parent x = s.parent x ∧
      (s.assign proc pgxactoff parent top).top x = s.top x := by
  simp [assign, Function.update_of_ne hx]

/-- The new transaction. -/
theorem assign_self (s : XactState) (proc : PGPROC → PGPROC) (pgxactoff parent top : ℕ) :
    (s.assign proc pgxactoff parent top).live s.nextXid = true ∧
      (s.assign proc pgxactoff parent top).parent s.nextXid = parent ∧
      (s.assign proc pgxactoff parent top).top s.nextXid = top := by
  simp [assign]

/-- An assigned id after an id is assigned. -/
theorem assigned_of_assign (h : s.Inv) (hmay : s.MayAssign)
    (hx : (s.assign proc pgxactoff parent top).Assigned x) (hne : x ≠ s.nextXid) :
    s.Assigned x := by
  obtain ⟨-, -, -, hmin⟩ := fullAdvance_spec h.normal hmay.2
  refine ⟨hx.oldest_le, ?_, hx.normal⟩
  by_contra hge
  have hle := hmin x (by omega) hx.normal
  have hlt : x < FullTransactionIdAdvance s.nextXid := hx.lt_next
  omega

/-- The backends other than the one that gets an id. -/
theorem Inv.backendOk_assign (h : s.Inv) (hq : s.arrayP.procs[i]? = some q)
    (hother : q.xid ≠ XidFromFullTransactionId top) :
    (s.assign proc pgxactoff parent top).BackendOk q := by
  refine (h.backend i q hq).congr fun t hxid x => ?_
  by_cases hx : x = s.nextXid
  · rw [hx, (assign_self s proc pgxactoff parent top).2.2]
    refine iff_of_false (fun hnew => hother (hnew.2 ▸ hxid)) fun hold => ?_
    exact lt_irrefl _ (h.live _ hold.1).1.lt_next
  · obtain ⟨hl, -, ht⟩ := assign_of_ne proc pgxactoff parent top hx
    rw [hl, ht]

/-- The top transaction of the new one. -/
theorem Inv.assign_top (h : s.Inv) (proc : PGPROC → PGPROC) (pgxactoff : ℕ)
    (hpar : parent = 0 ∧ top = s.nextXid ∨ s.live parent = true ∧ top = s.top parent) :
    (s.assign proc pgxactoff parent top).live top = true ∧
      (s.assign proc pgxactoff parent top).top top = top ∧ top ≤ s.nextXid := by
  rcases hpar with ⟨-, rfl⟩ | ⟨hlive, rfl⟩
  · obtain ⟨hl, -, ht⟩ := assign_self s proc pgxactoff parent s.nextXid
    exact ⟨hl, ht, le_rfl⟩
  · obtain ⟨htlive, httop, -, -⟩ := h.top parent hlive
    have hlt := (h.live _ htlive).1.lt_next
    obtain ⟨hl, -, ht⟩ := assign_of_ne proc pgxactoff parent (s.top parent) hlt.ne
    exact ⟨hl.trans htlive, ht.trans httop, hlt.le⟩

/-- **Assigning an id keeps shared memory in agreement**, if the backend then shows it. -/
theorem Inv.assign (h : s.Inv) (hmay : s.MayAssign)
    (hparent : parent = 0 ∧ top = s.nextXid ∨ s.live parent = true ∧ top = s.top parent)
    (hp : s.arrayP.procs[pgxactoff]? = some p)
    (hpxid : p.xid = InvalidTransactionId ∨ p.xid = XidFromFullTransactionId top)
    (hflags : (proc p).inVacuum = p.inVacuum ∧ (proc p).inLogicalDecoding = p.inLogicalDecoding)
    (hxid : (proc p).xid = XidFromFullTransactionId top)
    (hoth : ∀ (i : ℕ) (q : PGPROC), i ≠ pgxactoff → s.arrayP.procs[i]? = some q →
      q.xid ≠ XidFromFullTransactionId top)
    (hok : (s.assign proc pgxactoff parent top).BackendOk (proc p)) :
    (s.assign proc pgxactoff parent top).Inv := by
  obtain ⟨hlt, hnorm, hle, hmin⟩ := fullAdvance_spec h.normal hmay.2
  have hold := fun {x : ℕ} => assign_of_ne (s := s) proc pgxactoff parent top (x := x)
  obtain ⟨hlive, hpar, htop⟩ := assign_self s proc pgxactoff parent top
  have hnext := h.xmin_le
  -- a live transaction is the new one or was live before
  have hcases : ∀ x, (s.assign proc pgxactoff parent top).live x = true →
      x = s.nextXid ∨ x ≠ s.nextXid ∧ s.live x = true := by
    intro x hx
    by_cases hne : x = s.nextXid
    · exact .inl hne
    · exact .inr ⟨hne, (hold hne).1.symm.trans hx⟩
  refine ⟨hmay.1, hnorm, ?_, h.recovery, ?_, ?_, h.latest_normal, h.oldest_le,
    h.oldest_le_latest, h.xmin_normal, hnext.trans hlt.le, ?_, ?_, ?_, ?_, ?_, ?_, ?_, ?_, ?_⟩
  · exact lt_of_le_of_lt hle hmay.2
  · intro i q hq
    obtain ⟨-, rfl⟩ | ⟨-, hq⟩ := modify_procs hp hq
    · rw [hflags.1, hflags.2]
      exact h.flags pgxactoff p hp
    · exact h.flags i q hq
  · exact h.latest_lt.trans hlt
  · intro x hx
    rcases hcases x hx with rfl | ⟨-, hx⟩
    · exact ⟨⟨h.oldest_le.trans hnext, hlt, h.normal⟩, hnext⟩
    · obtain ⟨⟨holdest, hxlt, hxnormal⟩, hxmin⟩ := h.live x hx
      exact ⟨⟨holdest, hxlt.trans hlt, hxnormal⟩, hxmin⟩
  · intro x hx hover
    by_cases hne : x = s.nextXid
    · rw [hne, hlive] at hover
      cases hover
    · exact h.completed x (assigned_of_assign h hmay hx hne) ((hold hne).1.symm.trans hover)
  · intro i q hq
    obtain ⟨-, rfl⟩ | ⟨hi, hq⟩ := modify_procs hp hq
    · exact hok
    · exact h.backendOk_assign hq (hoth i q hi hq)
  · intro i j q r hq hr heq hne
    obtain ⟨hi, rfl⟩ | ⟨hi, hq⟩ := modify_procs hp hq
    · obtain ⟨hj, rfl⟩ | ⟨hj, hr⟩ := modify_procs hp hr
      · rw [hi, hj]
      · rw [hxid] at heq
        exact absurd heq.symm (hoth j r hj hr)
    · obtain ⟨hj, rfl⟩ | ⟨hj, hr⟩ := modify_procs hp hr
      · rw [hxid] at heq
        exact absurd heq (hoth i q hi hq)
      · exact h.distinct i j q r hq hr heq hne
  · intro x hx
    rcases hcases x hx with rfl | ⟨hne, hx⟩
    · obtain ⟨htlive, httop, htle⟩ := h.assign_top proc pgxactoff hparent
      rw [htop]
      refine ⟨htlive, httop, htle, pgxactoff, proc p, ?_, hxid⟩
      simp [XactState.assign, List.getElem?_modify_eq, hp, Option.map_eq_map]
    · obtain ⟨htlive, httop, htle, i, q, hq, hqxid⟩ := h.top x hx
      have htne : s.top x ≠ s.nextXid := (h.live _ htlive).1.lt_next.ne
      rw [(hold hne).2.2, (hold htne).1, (hold htne).2.2]
      refine ⟨htlive, httop, htle, exists_modify hp hq hqxid fun hpx => ?_⟩
      rcases hpxid with hpxid | hpxid
      · exact absurd (hpx.symm.trans hpxid) (h.word_ne htlive)
      · rw [hxid, ← hpxid, hpx]
  · intro x hxlt hxnormal
    by_cases hne : x = s.nextXid
    · rw [hne, htop]
      exact (h.assign_top proc pgxactoff hparent).2.2
    · rw [(hold hne).2.2]
      refine h.top_le x ?_ hxnormal
      by_contra hge
      have hle := hmin x (by omega) hxnormal
      have hxlt : x < FullTransactionIdAdvance s.nextXid := hxlt
      omega
  · intro x hx hxtop
    rcases hcases x hx with rfl | ⟨hne, hx⟩
    · rw [htop] at hxtop
      rcases hparent with ⟨-, rfl⟩ | ⟨hplive, -⟩
      · exact absurd rfl hxtop
      · rw [hpar, (hold (h.live parent hplive).1.lt_next.ne).1]
        exact hplive
    · rw [(hold hne).2.2] at hxtop
      have hplive := h.parent x hx hxtop
      rw [(hold hne).2.1, (hold (h.live _ hplive).1.lt_next.ne).1]
      exact hplive
  · intro x hx hxmin
    by_cases hne : x = s.nextXid
    · rw [hne, htop, hpar]
      rcases hparent with ⟨rfl, rfl⟩ | ⟨hplive, rfl⟩
      · exact ⟨fun _ => rfl, fun hne => absurd rfl hne⟩
      · have hplt := (h.live parent hplive).1.lt_next
        have hpge := (h.live parent hplive).1.oldest_le
        have htlt := (h.live _ (h.top parent hplive).1).1.lt_next
        have hstop := h.stop
        rw [MaxTransactionId] at hstop
        refine ⟨fun heq => absurd heq htlt.ne', fun _ => ⟨hplt, by omega, ?_,
          (h.live parent hplive).1.normal⟩⟩
        exact (hold hplt.ne).2.2
    · have hasg := assigned_of_assign h hmay hx hne
      obtain ⟨htopx, hsubx⟩ := h.history x hasg hxmin
      rw [(hold hne).2.2, (hold hne).2.1]
      refine ⟨htopx, ?_⟩
      intro hxtop
      obtain ⟨hplt, hpnear, hptop, hpnormal⟩ := hsubx hxtop
      have hpne : s.parent x ≠ s.nextXid := (hplt.trans hasg.lt_next).ne
      exact ⟨hplt, hpnear, (hold hpne).2.2.trans hptop, hpnormal⟩
  · intro x hx hxmin
    by_cases hne : x = s.nextXid
    · rw [hne, hpar]
      simp [XactState.assign]
    · have hasg := assigned_of_assign h hmay hx hne
      rw [(hold hne).2.1, (hold hne).1]
      simp only [XactState.assign, Function.update_of_ne (h.word_ne_next hasg)]
      exact h.subtrans x hasg hxmin

end Assign

/-- A top transaction gets its id. -/
theorem Inv.assignXid (h : s.Inv) (hon : s.Enabled (.assignXid pgxactoff)) :
    (s.effect (.assignXid pgxactoff)).Inv := by
  obtain ⟨hmay, p, hp, hpxid⟩ := hon
  refine h.assign hmay (.inl ⟨rfl, rfl⟩) hp (.inl hpxid) ⟨rfl, rfl⟩ rfl ?_ ?_
  · intro i q hi hq heq
    rcases h.backend i q hq with ⟨hnone, -, -⟩ | ⟨t, hlive, -, hxid, -⟩
    · have hnorm := h.normal
      rw [hnone, XidFromFullTransactionId, InvalidTransactionId] at heq
      rw [← heq] at hnorm
      cases hnorm
    · exact h.word_ne_next (h.live t hlive).1 (hxid.symm.trans heq)
  · obtain ⟨hlive, -, htop⟩ := assign_self s
      (fun proc => { proc with xid := XidFromFullTransactionId s.nextXid }) pgxactoff 0 s.nextXid
    rcases h.backend pgxactoff p hp with ⟨-, hsubxids, hoverflowed⟩ | ⟨t, htlive, -, hxid, -⟩
    · refine .inr ⟨s.nextXid, hlive, htop, rfl, ?_⟩
      intro _
      rw [hsubxids]
      refine ⟨nodup_nil, ?_⟩
      intro xid
      -- the new transaction has no subtransactions yet
      refine iff_of_false not_mem_nil ?_
      rintro ⟨x, hx, hxt, hne, -⟩
      obtain ⟨hl, -, ht⟩ := assign_of_ne
        (fun proc => { proc with xid := XidFromFullTransactionId s.nextXid }) pgxactoff 0 s.nextXid
        hne
      obtain ⟨htlive, -, -, -⟩ := h.top x (hl.symm.trans hx)
      have hlt := (h.live _ htlive).1.lt_next
      exact absurd (ht.symm.trans hxt) hlt.ne
    · exact absurd (hxid.symm.trans hpxid) (h.word_ne htlive)

/-- A subtransaction gets its id. -/
theorem Inv.assignSubXid (h : s.Inv) {parent : ℕ}
    (hon : s.Enabled (.assignSubXid pgxactoff parent)) :
    (s.effect (.assignSubXid pgxactoff parent)).Inv := by
  obtain ⟨hmay, hplive, p, hp, hpxid⟩ := hon
  obtain ⟨htlive, httop, -, -⟩ := h.top parent hplive
  have hxid : (cacheSubxid p (XidFromFullTransactionId s.nextXid)).xid = p.xid := by
    rw [cacheSubxid]
    split <;> rfl
  have hold := fun {x : ℕ} => assign_of_ne (s := s) (x := x)
    (fun proc => cacheSubxid proc (XidFromFullTransactionId s.nextXid)) pgxactoff parent
    (s.top parent)
  refine h.assign hmay (.inr ⟨hplive, rfl⟩) hp (.inr hpxid) ?_ (hxid.trans hpxid) ?_ ?_
  · rw [cacheSubxid]
    split <;> exact ⟨rfl, rfl⟩
  · intro i q hi hq heq
    exact hi (h.distinct i pgxactoff q p hq hp (heq.trans hpxid.symm)
      (by rw [heq]; exact h.word_ne htlive))
  · obtain ⟨hl, -, ht⟩ := hold (h.live _ htlive).1.lt_next.ne
    refine .inr ⟨s.top parent, hl.trans htlive, ht.trans httop, hxid.trans hpxid, ?_⟩
    rw [cacheSubxid]
    split
    case isFalse => exact fun hfits => nomatch hfits
    case isTrue =>
      intro hfits
      obtain ⟨hnodup, hcache⟩ := (h.backend_top hp htlive hpxid).2 hfits
      refine ⟨?_, ?_⟩
      · refine nodup_append.mpr ⟨hnodup, by simp, ?_⟩
        intro xid hmem xid' hnew heq
        obtain ⟨x, hx, -, -, rfl⟩ := (hcache xid).mp hmem
        exact h.word_ne_next (h.live x hx).1 (heq.trans (mem_singleton.mp hnew))
      · intro xid
        rw [mem_append, hcache, mem_singleton]
        constructor
        · rintro (⟨x, hx, hxt, hxne, rfl⟩ | rfl)
          · obtain ⟨hl, -, ht⟩ := hold (h.live x hx).1.lt_next.ne
            exact ⟨x, hl.trans hx, ht.trans hxt, hxne, rfl⟩
          · obtain ⟨hl, -, ht⟩ := assign_self s
              (fun proc => cacheSubxid proc (XidFromFullTransactionId s.nextXid)) pgxactoff parent
              (s.top parent)
            exact ⟨s.nextXid, hl, ht, (h.live _ htlive).1.lt_next.ne', rfl⟩
        · rintro ⟨x, hx, hxt, hxne, rfl⟩
          by_cases hne : x = s.nextXid
          · exact .inr (by rw [hne])
          · obtain ⟨hl, -, ht⟩ := hold hne
            exact .inl ⟨x, hl.symm.trans hx, ht.symm.trans hxt, hxne, rfl⟩

/-! ### Completing transactions -/

/-- The latest one of some live transactions. -/
theorem Inv.latest (h : s.Inv) (hxid : s.live xid = true) :
    ∀ {children : List ℕ}, (∀ x ∈ children, s.live x = true) →
      ∃ m ∈ xid :: children, TransactionIdLatest (XidFromFullTransactionId xid)
          (children.map XidFromFullTransactionId) = XidFromFullTransactionId m ∧
        ∀ x ∈ xid :: children, x ≤ m := by
  intro children
  induction children with
  | nil =>
    intro _
    refine ⟨xid, mem_singleton_self _, rfl, ?_⟩
    intro x hx
    rw [mem_singleton.mp hx]
  | cons c children ih =>
    intro hchil
    obtain ⟨hclive, hchil⟩ := forall_mem_cons.mp hchil
    obtain ⟨m, hm, hlat, hmax⟩ := ih hchil
    have hc := (h.live c hclive).1
    have hmlive := (forall_mem_cons (p := (s.live · = true))).mpr ⟨hxid, hchil⟩ m hm
    have hm' := (h.live m hmlive).1
    have hstop := h.stop
    have hcoldest := hc.oldest_le
    have hclt := hc.lt_next
    have hmoldest := hm'.oldest_le
    have hmlt := hm'.lt_next
    rw [MaxTransactionId] at hstop
    have hprec := (idOf hm'.normal).precedes (idOf hc.normal) (by omega) (by omega)
    rw [TransactionIdLatest] at hlat
    rw [TransactionIdLatest, map_cons, foldr_cons, hlat, hprec]
    by_cases hlt : m < c
    · refine ⟨c, by simp, by simp [hlt], ?_⟩
      simp only [forall_mem_cons] at hmax ⊢
      exact ⟨hmax.1.trans hlt.le, le_rfl, fun x hx => (hmax.2 x hx).trans hlt.le⟩
    · refine ⟨m, ?_, by simp [hlt], ?_⟩
      · rw [mem_cons] at hm
        exact mem_cons.mpr (hm.imp_right (mem_cons_of_mem _))
      · simp only [forall_mem_cons] at hmax ⊢
        exact ⟨hmax.1, not_lt.mp hlt, hmax.2⟩

/-- The latest completed id becomes the later one. -/
theorem Inv.maintain (h : s.Inv) {m : ℕ} (hm : s.live m = true) :
    MaintainLatestCompletedXid s.arrayP.latestCompletedXid (XidFromFullTransactionId m) =
      max s.arrayP.latestCompletedXid m := by
  have hm := (h.live m hm).1
  have hlat := h.latest_lt
  have hold := h.oldest_le_latest
  have hstop := h.stop
  have hmlo := hm.oldest_le
  have hmhi := hm.lt_next
  have hnext := h.next_lt
  rw [MaxTransactionId] at hstop
  have hprec : TransactionIdPrecedes
      (XidFromFullTransactionId s.arrayP.latestCompletedXid) (XidFromFullTransactionId m) =
      decide (s.arrayP.latestCompletedXid < m) := by
    rcases h.latest_normal with hnorm | hearly
    · have hprec := (idOf hnorm).precedes (idOf hm.normal) (by omega) (by omega)
      rw [hprec]
      exact decide_eq_decide.mpr Int.ofNat_lt
    · -- no id has been completed in the first epoch
      have hmnormal := hm.normal
      have hword : XidFromFullTransactionId s.arrayP.latestCompletedXid =
          s.arrayP.latestCompletedXid := by
        rw [FirstNormalTransactionId] at hearly
        exact Nat.mod_eq_of_lt (by omega)
      have hle : XidFromFullTransactionId m ≤ m := Nat.mod_le _ _
      have hspec : TransactionIdIsNormal s.arrayP.latestCompletedXid = false :=
        decide_eq_false (not_le.mpr hearly)
      rw [hword, TransactionIdPrecedes, hspec]
      simp only [Bool.not_false, Bool.true_or]
      exact decide_eq_decide.mpr (by omega)
  rw [MaintainLatestCompletedXid, hprec]
  by_cases hlt : s.arrayP.latestCompletedXid < m
  · have hfull : FullXidRelativeTo s.arrayP.latestCompletedXid (XidFromFullTransactionId m) =
        ((m : ℤ) % 2 ^ 64).toNat := (idOf hm.normal).relativeTo (by omega) (by omega)
    rw [decide_eq_true hlt, if_pos rfl]
    omega
  · rw [decide_eq_false hlt, if_neg Bool.false_ne_true]
    omega

section Complete

variable {proc : PGPROC → PGPROC} {pgxactoff latestXid top : ℕ} {xids : List ℕ}

/-- A transaction is live after others are over if it was live and is not one of them. -/
theorem complete_live : (s.complete proc pgxactoff latestXid xids).live x = true ↔
    s.live x = true ∧ x ∉ xids := by
  simp [complete]

/-- A backend other than the one whose transactions are over. -/
theorem Inv.backendOk_complete (h : s.Inv) (hxids : ∀ x ∈ xids, s.live x = true ∧ s.top x = top)
    (hq : s.arrayP.procs[i]? = some q) (hother : q.xid ≠ XidFromFullTransactionId top) :
    (s.complete proc pgxactoff latestXid xids).BackendOk q := by
  refine (h.backend i q hq).congr fun t hxid x => ?_
  rw [complete_live, and_right_comm]
  refine and_iff_left_of_imp ?_
  rintro ⟨-, rfl⟩ hx
  exact hother ((hxids x hx).2 ▸ hxid)

/-- **Completing transactions of one backend keeps shared memory in agreement**, if they are all
below those that are completed and the backend does not show them any more. -/
theorem Inv.complete (h : s.Inv) (hxids : ∀ x ∈ xids, s.live x = true ∧ s.top x = top) {m : ℕ}
    (hm : m ∈ xids) (hlat : latestXid = XidFromFullTransactionId m) (hmax : ∀ x ∈ xids, x ≤ m)
    (hbelow : ∀ x, s.live x = true → x ≠ s.top x → s.parent x ∈ xids → x ∈ xids)
    (htops : ∀ x, s.live x = true → s.top x ∈ xids → x ∈ xids)
    (hp : s.arrayP.procs[pgxactoff]? = some p) (hpxid : p.xid = XidFromFullTransactionId top)
    (hflags : (proc p).inVacuum = p.inVacuum ∧ (proc p).inLogicalDecoding = p.inLogicalDecoding)
    (hxid : (proc p).xid = p.xid ∨ (proc p).xid = InvalidTransactionId ∧
      ∀ x, s.live x = true → s.top x = top → x ∈ xids)
    (hok : (s.complete proc pgxactoff latestXid xids).BackendOk (proc p)) :
    (s.complete proc pgxactoff latestXid xids).Inv := by
  obtain ⟨hmlive, hmtop⟩ := hxids m hm
  have hmassigned := (h.live m hmlive).1
  have hnew : (s.complete proc pgxactoff latestXid xids).arrayP.latestCompletedXid =
      max s.arrayP.latestCompletedXid m := by
    rw [hlat]
    exact h.maintain hmlive
  have htlive : s.live top = true := hmtop ▸ (h.top m hmlive).1
  have hoth : ∀ (i : ℕ) (q : PGPROC), i ≠ pgxactoff → s.arrayP.procs[i]? = some q →
      q.xid ≠ XidFromFullTransactionId top := by
    intro i q hi hq heq
    exact hi (h.distinct i pgxactoff q p hq hp (heq.trans hpxid.symm)
      (by rw [heq]; exact h.word_ne htlive))
  have hasg : ∀ x, (s.complete proc pgxactoff latestXid xids).Assigned x → s.Assigned x :=
    fun x hx => ⟨hx.oldest_le, hx.lt_next, hx.normal⟩
  refine ⟨h.stop, h.normal, h.next_lt, h.recovery, ?_, ?_, ?_, h.oldest_le, ?_, h.xmin_normal,
    h.xmin_le, ?_, ?_, ?_, ?_, ?_, h.top_le, ?_, ?_, ?_⟩
  · intro i q hq
    obtain ⟨-, rfl⟩ | ⟨-, hq⟩ := modify_procs hp hq
    · rw [hflags.1, hflags.2]
      exact h.flags pgxactoff p hp
    · exact h.flags i q hq
  · rw [hnew]
    exact Nat.max_lt.mpr ⟨h.latest_lt, hmassigned.lt_next⟩
  · rw [hnew]
    rcases le_total s.arrayP.latestCompletedXid m with hle | hle
    · rw [max_eq_right hle]
      exact .inl hmassigned.normal
    · rw [max_eq_left hle]
      exact h.latest_normal
  · rw [hnew]
    have hle := le_max_left s.arrayP.latestCompletedXid m
    exact h.oldest_le_latest.trans (Nat.add_le_add_right hle 1)
  · intro x hx
    obtain ⟨⟨hold, hlt, hnorm⟩, hxmin⟩ := h.live x (complete_live.mp hx).1
    exact ⟨⟨hold, hlt, hnorm⟩, hxmin⟩
  · intro x hx hover
    rw [hnew]
    by_cases hxlive : s.live x = true
    · by_cases hmem : x ∈ xids
      · exact (hmax x hmem).trans (le_max_right _ _)
      · rw [complete_live.mpr ⟨hxlive, hmem⟩] at hover
        cases hover
    · exact (h.completed x (hasg x hx) (by simpa using hxlive)).trans (le_max_left _ _)
  · intro i q hq
    obtain ⟨-, rfl⟩ | ⟨hi, hq⟩ := modify_procs hp hq
    · exact hok
    · exact h.backendOk_complete hxids hq (hoth i q hi hq)
  · -- the backend shows what it showed before, or nothing
    have hshown : ∀ (i : ℕ) (q : PGPROC),
        (s.complete proc pgxactoff latestXid xids).arrayP.procs[i]? = some q →
        q.xid ≠ InvalidTransactionId → ∃ q', s.arrayP.procs[i]? = some q' ∧ q'.xid = q.xid := by
      intro i q hq hne
      obtain ⟨rfl, rfl⟩ | ⟨-, hq⟩ := modify_procs hp hq
      · rcases hxid with hxid | ⟨hxid, -⟩
        · exact ⟨p, hp, hxid.symm⟩
        · exact absurd hxid hne
      · exact ⟨q, hq, rfl⟩
    intro i j q r hq hr heq hne
    obtain ⟨q', hq', hqxid⟩ := hshown i q hq hne
    obtain ⟨r', hr', hrxid⟩ := hshown j r hr (heq ▸ hne)
    exact h.distinct i j q' r' hq' hr' (hqxid.trans (heq.trans hrxid.symm)) (hqxid ▸ hne)
  · intro x hx
    obtain ⟨hxlive, hxmem⟩ := complete_live.mp hx
    obtain ⟨htxlive, htxtop, htxle, i, q, hq, hqxid⟩ := h.top x hxlive
    have htxmem : s.top x ∉ xids := fun hmem => hxmem (htops x hxlive hmem)
    refine ⟨complete_live.mpr ⟨htxlive, htxmem⟩, htxtop, htxle,
      exists_modify hp hq hqxid fun hpx => ?_⟩
    rcases hxid with hxid | ⟨-, hall⟩
    · exact hxid.trans hpx
    · have hsame := h.live_inj htxlive htlive (hpx.symm.trans hpxid)
      exact absurd (hall x hxlive hsame) hxmem
  · intro x hx hxtop
    obtain ⟨hxlive, hxmem⟩ := complete_live.mp hx
    exact complete_live.mpr ⟨h.parent x hxlive hxtop,
      fun hmem => hxmem (hbelow x hxlive hxtop hmem)⟩
  · intro x hx hxmin
    exact h.history x (hasg x hx) hxmin
  · intro x hx hxmin
    rcases h.subtrans x (hasg x hx) hxmin with heq | ⟨hover, heq⟩
    · exact .inl heq
    · refine .inr ⟨?_, heq⟩
      rw [← Bool.not_eq_true]
      intro hlive
      rw [(complete_live.mp hlive).1] at hover
      cases hover

end Complete

/-- One id is removed from the cache. -/
theorem removeSubxid_perm (subxids : List ℕ) (anxid : ℕ) :
    (removeSubxid subxids anxid).Perm (subxids.erase anxid) := by
  have hrev := subxids.reverse_perm
  rw [removeSubxid]
  cases hcases : subxids.reverse with
  | nil =>
    rw [reverse_eq_nil_iff.mp hcases]
    exact List.Perm.refl _
  | cons last rest =>
    rw [hcases] at hrev
    have herase := hrev.erase anxid
    dsimp only
    by_cases hlast : last = anxid
    · rw [if_pos hlast]
      rw [hlast, erase_cons_head] at herase
      exact rest.reverse_perm.trans herase
    · rw [if_neg hlast]
      by_cases hmem : anxid ∈ rest
      · rw [if_pos hmem]
        have hidx := idxOf_lt_length_iff.mpr hmem
        rw [erase_cons_tail (by simpa using hlast), erase_eq_eraseIdx_of_idxOf rfl] at herase
        exact (reverse_perm _).trans ((set_perm_cons_eraseIdx hidx last).trans herase)
      · rw [if_neg hmem]
        have hnot : anxid ∉ subxids := by
          rw [← hrev.mem_iff, mem_cons]
          rintro (h | h)
          · exact hlast h.symm
          · exact hmem h
        rw [erase_of_not_mem hnot]

/-- **The subtransactions that are rolled back are removed from the cache**, and no others. -/
theorem removeSubxids_spec {subxids : List ℕ} (h : subxids.Nodup) (xid : ℕ) (xids : List ℕ) :
    (removeSubxids subxids xid xids).Nodup ∧
      ∀ v, v ∈ removeSubxids subxids xid xids ↔ v ∈ subxids ∧ v ∉ xid :: xids := by
  have hone : ∀ {l : List ℕ} (a : ℕ), l.Nodup → (removeSubxid l a).Nodup ∧
      ∀ v, v ∈ removeSubxid l a ↔ v ∈ l ∧ v ≠ a := by
    intro l a hl
    have hperm := removeSubxid_perm l a
    refine ⟨hperm.nodup_iff.mpr (hl.erase a), ?_⟩
    intro v
    rw [hperm.mem_iff, hl.mem_erase_iff, and_comm]
  have hfold : (xids.foldr (fun anxid subxids => removeSubxid subxids anxid) subxids).Nodup ∧
      ∀ v, v ∈ xids.foldr (fun anxid subxids => removeSubxid subxids anxid) subxids ↔
        v ∈ subxids ∧ v ∉ xids := by
    induction xids with
    | nil => exact ⟨h, fun v => ⟨fun hv => ⟨hv, not_mem_nil⟩, And.left⟩⟩
    | cons a xids ih =>
      obtain ⟨hnodup, hmem⟩ := ih
      refine ⟨(hone a hnodup).1, ?_⟩
      intro v
      rw [foldr_cons, (hone a hnodup).2, hmem, mem_cons, not_or, and_assoc]
      exact and_congr_right fun _ => and_comm
  refine ⟨(hone xid hfold.1).1, ?_⟩
  intro v
  rw [removeSubxids, (hone xid hfold.1).2, hfold.2, mem_cons, not_or, and_assoc]
  exact and_congr_right fun _ => and_comm

variable {children : List ℕ}

/-- A subtransaction is rolled back. -/
theorem Inv.abortSub (h : s.Inv) (hon : s.Enabled (.abortSub pgxactoff xid children)) :
    (s.effect (.abortSub pgxactoff xid children)).Inv := by
  obtain ⟨⟨p, hp, hpxid⟩, hxids, hbelow⟩ := hon
  have hlive := (hxids xid mem_cons_self).1
  obtain ⟨htlive, httop, -, -⟩ := h.top xid hlive
  obtain ⟨m, hm, hlat, hmax⟩ := h.latest hlive fun x hx => (hxids x (mem_cons_of_mem _ hx)).1
  have htmem : s.top xid ∉ xid :: children := fun hmem => (hxids _ hmem).2.2 httop.symm
  refine h.complete (fun x hx => ⟨(hxids x hx).1, (hxids x hx).2.1⟩) hm hlat hmax
    (fun x hx _ hmem => hbelow x hx hmem) ?_ hp hpxid ⟨rfl, rfl⟩ (.inl rfl) ?_
  · -- a top transaction is not rolled back here
    intro x hx hmem
    exact absurd (h.top x hx).2.1.symm (hxids _ hmem).2.2
  · refine .inr ⟨s.top xid, complete_live.mpr ⟨htlive, htmem⟩, httop, hpxid, ?_⟩
    intro hfits
    obtain ⟨hnodup, hcache⟩ := (h.backend_top hp htlive hpxid).2 hfits
    obtain ⟨hnodup', hmem⟩ := removeSubxids_spec hnodup (XidFromFullTransactionId xid)
      (children.map XidFromFullTransactionId)
    refine ⟨hnodup', ?_⟩
    intro v
    rw [hmem, hcache, ← map_cons]
    constructor
    · rintro ⟨⟨x, hx, hxt, hxne, rfl⟩, hnot⟩
      refine ⟨x, complete_live.mpr ⟨hx, ?_⟩, hxt, hxne, rfl⟩
      exact fun hmem => hnot (mem_map_of_mem hmem)
    · rintro ⟨x, hx, hxt, hxne, rfl⟩
      obtain ⟨hx, hnot⟩ := complete_live.mp hx
      refine ⟨⟨x, hx, hxt, hxne, rfl⟩, ?_⟩
      intro hmem
      obtain ⟨y, hy, heq⟩ := mem_map.mp hmem
      rw [h.live_inj (hxids y hy).1 hx heq] at hy
      exact hnot hy

/-- A top transaction ends. -/
theorem Inv.endTransaction (h : s.Inv)
    (hon : s.Enabled (.endTransaction pgxactoff xid children)) :
    (s.effect (.endTransaction pgxactoff xid children)).Inv := by
  obtain ⟨⟨p, hp, hpxid⟩, hlive, htop, hxids⟩ := hon
  obtain ⟨m, hm, hlat, hmax⟩ :=
    h.latest hlive fun x hx => ((hxids x).mp (mem_cons_of_mem _ hx)).1
  refine h.complete (fun x hx => (hxids x).mp hx) hm hlat hmax ?_ ?_ hp hpxid ⟨rfl, rfl⟩
    (.inr ⟨rfl, fun x hx hxt => (hxids x).mpr ⟨hx, hxt⟩⟩) (.inl ⟨rfl, rfl, rfl⟩)
  · intro x hx hxtop hmem
    obtain ⟨hasg, hxmin⟩ := h.live x hx
    obtain ⟨-, -, hptop, -⟩ := (h.history x hasg hxmin).2 hxtop
    exact (hxids x).mpr ⟨hx, hptop.symm.trans ((hxids _).mp hmem).2⟩
  · intro x hx hmem
    exact (hxids x).mpr ⟨hx, (h.top x hx).2.1.symm.trans ((hxids _).mp hmem).2⟩

variable {transactionXmin : ℕ}

/-- The records from `TransactionXmin` on are kept. -/
theorem Inv.truncate_kept (h : s.Inv) (hx : s.Assigned x) (hxmin : transactionXmin ≤ x) :
    Word32.sub (XidFromFullTransactionId x) transactionXmin < s.nextXid - transactionXmin := by
  have hlt := hx.lt_next
  have hstop := h.stop
  simp only [Word32.sub, XidFromFullTransactionId] at hstop ⊢
  omega

/-- The calling backend gives up snapshots. -/
theorem Inv.truncate (h : s.Inv) {pg_subtrans : ℕ → ℕ}
    (hon : s.Enabled (.truncate transactionXmin pg_subtrans)) :
    (s.effect (.truncate transactionXmin pg_subtrans)).Inv := by
  obtain ⟨hge, hnorm, hle, hlive⟩ := hon
  have hasg : ∀ x, (s.effect (.truncate transactionXmin pg_subtrans)).Assigned x →
      s.Assigned x := fun x hx => ⟨hx.oldest_le, hx.lt_next, hx.normal⟩
  refine ⟨h.stop, h.normal, h.next_lt, h.recovery, h.flags, h.latest_lt, h.latest_normal,
    h.oldest_le.trans hge, h.oldest_le_latest, hnorm, hle, ?_, ?_, h.backend, h.distinct, h.top,
    h.top_le, h.parent, ?_, ?_⟩
  · intro x hx
    obtain ⟨⟨hold, hlt, hnorm⟩, -⟩ := h.live x hx
    exact ⟨⟨hold, hlt, hnorm⟩, hlive x hx⟩
  · exact fun x hx => h.completed x (hasg x hx)
  · exact fun x hx hxmin => h.history x (hasg x hx) (hge.trans hxmin)
  · intro x hx hxmin
    have hreach : transactionXmin ≤ x := hxmin
    have hkept := h.truncate_kept (hasg x hx) hreach
    simp only [effect, if_pos hkept]
    exact h.subtrans x (hasg x hx) (hge.trans hxmin)

/-- `oldestXid` moves on. -/
theorem Inv.freeze (h : s.Inv) {oldest : ℕ} (hon : s.Enabled (.freeze oldest)) :
    (s.effect (.freeze oldest)).Inv := by
  obtain ⟨hge, hle, hlat⟩ := hon
  have hasg : ∀ x, (s.effect (.freeze oldest)).Assigned x → s.Assigned x :=
    fun x hx => ⟨hge.trans hx.oldest_le, hx.lt_next, hx.normal⟩
  refine ⟨?_, h.normal, h.next_lt, h.recovery, h.flags, h.latest_lt, h.latest_normal, hle,
    hlat, h.xmin_normal, h.xmin_le, ?_, ?_, h.backend, h.distinct, h.top, h.top_le, h.parent, ?_,
    ?_⟩
  · exact h.stop.trans (Nat.add_le_add_right hge _)
  · intro x hx
    obtain ⟨⟨-, hlt, hnorm⟩, hxmin⟩ := h.live x hx
    exact ⟨⟨hle.trans hxmin, hlt, hnorm⟩, hxmin⟩
  · exact fun x hx => h.completed x (hasg x hx)
  · exact fun x hx => h.history x (hasg x hx)
  · exact fun x hx => h.subtrans x (hasg x hx)

/-- **Every step keeps shared memory in agreement with what happened.** -/
theorem Inv.step {s' : XactState} (h : s.Inv) (hstep : s.Step s') : s'.Inv := by
  obtain ⟨e, hon, rfl⟩ := hstep
  cases e with
  | assignXid pgxactoff => exact h.assignXid hon
  | assignSubXid pgxactoff parent => exact h.assignSubXid hon
  | abortSub pgxactoff xid children => exact h.abortSub hon
  | endTransaction pgxactoff xid children => exact h.endTransaction hon
  | truncate transactionXmin pg_subtrans => exact h.truncate hon
  | freeze oldest => exact h.freeze hon

end FdPostgres.XactState
