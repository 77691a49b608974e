import FdPostgres.Procarray.XactSteps

/-!
# Looking Up Top Transactions

A snapshot that does not list all subtransactions looks up the top transaction of an id in
`pg_subtrans`. The lookup follows the recorded parents and stops before `TransactionXmin`, below
which the records may be gone.

* `SubTransGetTopmostTransaction`: the lookup.
* `XactState.Inv.topmost`: what it finds, with the records of a later state too.
* `XactState.Run`, `XactState.Run.subtrans`: later states keep the records that are in reach.
-/

namespace FdPostgres

def SubTransGetParent (pg_subtrans : ℕ → ℕ) (xid : ℕ) : ℕ :=
  if !TransactionIdIsNormal xid then InvalidTransactionId else pg_subtrans xid

/-- The loop of `SubTransGetTopmostTransaction`. It fails on a parent that does not precede its
child. -/
def topmostLoop (pg_subtrans : ℕ → ℕ) (TransactionXmin : ℕ) : ℕ → ℕ → ℕ → Option ℕ
  | 0, _, _ => none
  | fuel + 1, parentXid, previousXid =>
      if !TransactionIdIsValid parentXid then some previousXid
      else
        let previousXid := parentXid
        if TransactionIdPrecedes parentXid TransactionXmin then some previousXid
        else
          let parentXid := SubTransGetParent pg_subtrans parentXid
          if !TransactionIdPrecedes parentXid previousXid then none
          else topmostLoop pg_subtrans TransactionXmin fuel parentXid previousXid

/-- `SubTransGetTopmostTransaction`. Each round goes back, so there are fewer rounds than ids. -/
def SubTransGetTopmostTransaction (pg_subtrans : ℕ → ℕ) (TransactionXmin xid : ℕ) : Option ℕ :=
  topmostLoop pg_subtrans TransactionXmin (2 ^ 32) xid xid

namespace XactState

variable {s s' s'' : XactState}

/-! ### The lookup -/

/-- **The lookup from an assigned id** finds an id of the same top transaction, and for a live
transaction the top transaction itself, if it is in reach. The records are those of the state, as
far back as `TransactionXmin`. -/
theorem Inv.topmostLoop (h : s.Inv) {pg_subtrans : ℕ → ℕ} {xmin : ℕ}
    (hxmin : s.transactionXmin ≤ xmin)
    (hnorm : FirstNormalTransactionId ≤ XidFromFullTransactionId xmin)
    (hsame : ∀ x, s.Assigned x → xmin ≤ x →
      pg_subtrans (XidFromFullTransactionId x) = s.pg_subtrans (XidFromFullTransactionId x)) :
    ∀ (fuel x previous : ℕ), s.Assigned x → xmin ≤ x → x + 2 ≤ xmin + fuel →
      ∃ y, FdPostgres.topmostLoop pg_subtrans (XidFromFullTransactionId xmin) fuel
          (XidFromFullTransactionId x) previous = some (XidFromFullTransactionId y) ∧
        y ≤ x ∧ xmin < y + 2 ^ 31 ∧ s.top y = s.top x ∧
        (s.live x = true → xmin ≤ s.top x → y = s.top x) := by
  intro fuel
  induction fuel with
  | zero =>
    omega
  | succ fuel ih =>
    intro x previous hx hle hfuel
    have hold := h.oldest_le
    have hstop := h.stop
    have hlt := hx.lt_next
    have hid := idOf hx.normal
    rw [MaxTransactionId] at hstop
    have hxminlt : ¬ ((x : ℤ) < xmin) := by omega
    have hprec := hid.precedes (idOf hnorm) (by omega) (by omega)
    have hnormalx : TransactionIdIsNormal (XidFromFullTransactionId x) = true :=
      decide_eq_true hx.normal
    -- one round: the id is valid and in reach, so its parent is read
    have hround : FdPostgres.topmostLoop pg_subtrans (XidFromFullTransactionId xmin) (fuel + 1)
        (XidFromFullTransactionId x) previous =
        if !TransactionIdPrecedes (s.pg_subtrans (XidFromFullTransactionId x))
          (XidFromFullTransactionId x) then none
        else FdPostgres.topmostLoop pg_subtrans (XidFromFullTransactionId xmin) fuel
          (s.pg_subtrans (XidFromFullTransactionId x)) (XidFromFullTransactionId x) := by
      rw [FdPostgres.topmostLoop]
      simp only [hid.valid, hprec, decide_eq_false hxminlt, SubTransGetParent, hnormalx,
        hsame x hx hle, Bool.not_true, Bool.false_eq_true, if_false]
    -- without a recorded parent the id itself is found
    have hnone : s.pg_subtrans (XidFromFullTransactionId x) = InvalidTransactionId →
        FdPostgres.topmostLoop pg_subtrans (XidFromFullTransactionId xmin) (fuel + 1)
          (XidFromFullTransactionId x) previous = some (XidFromFullTransactionId x) := by
      intro hzero
      have hbef : TransactionIdPrecedes InvalidTransactionId (XidFromFullTransactionId x) =
          true := by
        have hge := hx.normal
        rw [FirstNormalTransactionId] at hge
        simp only [InvalidTransactionId]
        exact decide_eq_true (by omega)
      obtain ⟨fuel', rfl⟩ : ∃ fuel', fuel = fuel' + 1 := ⟨fuel - 1, by omega⟩
      rw [hround, hzero, hbef]
      rfl
    obtain ⟨htopx, hsubx⟩ := h.history x hx (hxmin.trans hle)
    by_cases hxtop : x = s.top x
    · refine ⟨x, hnone ?_, le_rfl, by omega, rfl, fun _ _ => hxtop⟩
      rcases h.subtrans x hx (hxmin.trans hle) with hpar | ⟨-, hzero⟩
      · rw [hpar, htopx hxtop]
        rfl
      · exact hzero
    · rcases h.subtrans x hx (hxmin.trans hle) with hpar | ⟨hover, hzero⟩
      · obtain ⟨hplt, hpnear, hptop, hpnormal⟩ := hsubx hxtop
        have hpid := idOf hpnormal
        have hbef := hpid.precedes hid (by omega) (by omega)
        rw [hround, hpar, hbef, decide_eq_true (by omega)]
        by_cases hreach : xmin ≤ s.parent x
        · have hpassigned : s.Assigned (s.parent x) := ⟨by omega, by omega, hpnormal⟩
          obtain ⟨y, hy, hyle, hynear, hytop, hylive⟩ :=
            ih (s.parent x) (XidFromFullTransactionId x) hpassigned hreach (by omega)
          refine ⟨y, hy, hyle.trans hplt.le, hynear, hytop.trans hptop, ?_⟩
          intro hlive hreach
          have hplive := h.parent x hlive hxtop
          rw [← hptop] at hreach ⊢
          exact hylive hplive hreach
        · -- the parent is out of reach
          obtain ⟨fuel', rfl⟩ : ∃ fuel', fuel = fuel' + 1 := ⟨fuel - 1, by omega⟩
          have hbelow := hpid.precedes (idOf hnorm) (by omega) (by omega)
          refine ⟨s.parent x, ?_, hplt.le, by omega, hptop, ?_⟩
          · rw [FdPostgres.topmostLoop]
            simp only [hpid.valid, hbelow, decide_eq_true (show ((s.parent x : ℕ) : ℤ) < xmin by
              omega), Bool.not_true, Bool.false_eq_true, if_false, if_true]
          · intro hlive hreach'
            have hplive := h.parent x hlive hxtop
            have htle := (h.top _ hplive).2.2.1
            omega
      · refine ⟨x, hnone hzero, le_rfl, by omega, rfl, ?_⟩
        intro hlive
        rw [hlive] at hover
        cases hover

/-! ### Later states -/

/-- Any number of steps. -/
def Run (s s' : XactState) : Prop := Relation.ReflTransGen Step s s'

/-- A run keeps shared memory in agreement with what happened. -/
theorem Run.inv (h : s.Inv) (hrun : s.Run s') : s'.Inv := by
  induction hrun with
  | refl => exact h
  | tail _ hstep ih => exact ih.step hstep

/-- What a step keeps: the counters do not go back, and what is known about assigned ids does not
change. -/
structure Keeps (s s' : XactState) : Prop where
  next : s.nextXid ≤ s'.nextXid
  xmin : s.transactionXmin ≤ s'.transactionXmin
  oldest : s.oldest ≤ s'.oldest
  count : s.xactCompletionCount ≤ s'.xactCompletionCount
  top : ∀ x, x < s.nextXid → s'.top x = s.top x
  subtrans : ∀ x, s.Assigned x → s'.transactionXmin ≤ x →
    s'.pg_subtrans (XidFromFullTransactionId x) = s.pg_subtrans (XidFromFullTransactionId x)

/-- An id is assigned. -/
theorem Inv.keeps_assign (h : s.Inv) (hmay : s.MayAssign) (proc : PGPROC → PGPROC)
    (pgxactoff parent top : ℕ) : s.Keeps (s.assign proc pgxactoff parent top) where
  next := (fullAdvance_spec h.normal hmay.2).1.le
  xmin := le_rfl
  oldest := le_rfl
  count := le_rfl
  top x hx := (assign_of_ne proc pgxactoff parent top hx.ne).2.2
  subtrans x hx _ := by
    have hword : XidFromFullTransactionId x ≠ XidFromFullTransactionId s.nextXid := fun heq =>
      hx.lt_next.ne (h.word_inj hx.oldest_le hx.lt_next.le (h.oldest_le.trans h.xmin_le) le_rfl heq)
    simp only [XactState.assign, Function.update_of_ne hword]

/-- Every step keeps it. -/
theorem Inv.keeps (h : s.Inv) (hstep : s.Step s') : s.Keeps s' := by
  obtain ⟨e, hon, rfl⟩ := hstep
  cases e with
  | assignXid pgxactoff | assignSubXid pgxactoff parent => exact h.keeps_assign hon.1 _ _ _ _
  | abortSub pgxactoff xid children | endTransaction pgxactoff xid children =>
    exact ⟨le_rfl, le_rfl, le_rfl, Nat.le_succ _, fun _ _ => rfl, fun _ _ _ => rfl⟩
  | truncate transactionXmin pg_subtrans =>
    refine ⟨le_rfl, hon.1, le_rfl, le_rfl, fun _ _ => rfl, ?_⟩
    intro x hx hxmin
    have hreach : transactionXmin ≤ x := hxmin
    have hkept := h.truncate_kept hx hreach
    simp only [effect, if_pos hkept]
  | freeze oldest =>
    exact ⟨le_rfl, le_rfl, hon.1, le_rfl, fun _ _ => rfl, fun _ _ _ => rfl⟩

/-- **A run keeps what is known about assigned ids.** -/
theorem Run.keeps (h : s.Inv) (hrun : s.Run s') : s.Keeps s' := by
  induction hrun with
  | refl =>
    exact ⟨le_rfl, le_rfl, le_rfl, le_rfl, fun _ _ => rfl, fun _ _ _ => rfl⟩
  | @tail b c hrun hstep ih =>
    have hinv : b.Inv := Run.inv h hrun
    have hkeeps := hinv.keeps hstep
    refine ⟨ih.next.trans hkeeps.next, ih.xmin.trans hkeeps.xmin, ih.oldest.trans hkeeps.oldest,
      ih.count.trans hkeeps.count, ?_, ?_⟩
    · intro x hx
      rw [hkeeps.top x (lt_of_lt_of_le hx ih.next), ih.top x hx]
    · intro x hx hxmin
      have hreach : b.transactionXmin ≤ x := hkeeps.xmin.trans hxmin
      have hx' : b.Assigned x :=
        ⟨hinv.oldest_le.trans hreach, lt_of_lt_of_le hx.lt_next ih.next, hx.normal⟩
      rw [hkeeps.subtrans x hx' hxmin, ih.subtrans x hx hreach]

end XactState

end FdPostgres
