import FdPostgres.Wal.Positions

/-!
# Which Pages a Record Has Images of

A record has an image of a page that is changed for the first time since the last checkpoint. A
backend decides this from its own copies of the redo pointer and of the switch for full-page writes,
which may be out of date, and remembers the smallest LSN of the pages that it has left out.

* `XLogRecordAssemble`: the block references of a record.
* `mustRetry`: the check of `XLogInsertRecord` against the values in force.
* `assemble_uptodate`: **a record that passes the check is the one that the values in force give.**
-/

namespace FdPostgres.Wal

open List

def InvalidXLogRecPtr : ℕ := 0

def REGBUF_FORCE_IMAGE : BitVec 8 := 0x01

def REGBUF_NO_IMAGE : BitVec 8 := 0x02

def REGBUF_WILL_INIT : BitVec 8 := 0x04 ||| 0x02

def REGBUF_KEEP_DATA : BitVec 8 := 0x10

/-- `registered_buffer`. The relation, the fork and the block are one tag, and `changed` tells
whether the record changes the page. -/
structure registered_buffer (τ : Type*) where
  in_use : Bool
  flags : BitVec 8
  tag : τ
  rdata_len : ℕ
  changed : Bool
  deriving DecidableEq

/-- A block reference of a record: its number, its page, the flags `BKPBLOCK_WILL_INIT`,
`BKPBLOCK_HAS_IMAGE` and `BKPBLOCK_HAS_DATA`, and `BKPIMAGE_APPLY` of the image. -/
structure BlockReference (τ : Type*) where
  id : ℕ
  tag : τ
  will_init : Bool
  has_image : Bool
  has_data : Bool
  apply : Bool
  deriving DecidableEq

/-- What `XLogRecordAssemble` builds: the block references, and what it returns in `fpw_lsn` and
`num_fpi`. -/
structure Assembly (τ : Type*) where
  blocks : List (BlockReference τ)
  fpw_lsn : ℕ
  num_fpi : ℕ
  deriving DecidableEq

variable {τ : Type*}

/-- The image of a page depends on its LSN. -/
def registered_buffer.byLSN (regbuf : registered_buffer τ) : Bool :=
  regbuf.flags &&& REGBUF_FORCE_IMAGE == 0 && regbuf.flags &&& REGBUF_NO_IMAGE == 0

def needs_backup (lsn : τ → ℕ) (RedoRecPtr : ℕ) (doPageWrites : Bool)
    (regbuf : registered_buffer τ) : Bool :=
  if regbuf.flags &&& REGBUF_FORCE_IMAGE ≠ 0 then true
  else if regbuf.flags &&& REGBUF_NO_IMAGE ≠ 0 then false
  else if !doPageWrites then false
  else lsn regbuf.tag ≤ RedoRecPtr

/-- The smallest LSN of the pages that are left out, with one more page. -/
def leaveOut (lsn : τ → ℕ) (doPageWrites backup : Bool) (regbuf : registered_buffer τ)
    (fpw_lsn : ℕ) : ℕ :=
  if regbuf.byLSN && doPageWrites && !backup then
    let page_lsn := lsn regbuf.tag
    if fpw_lsn = InvalidXLogRecPtr ∨ page_lsn < fpw_lsn then page_lsn else fpw_lsn
  else fpw_lsn

/-- The reference to a block. -/
def blockReference (check : Bool) (backup : Bool) (id : ℕ) (regbuf : registered_buffer τ) :
    BlockReference τ where
  id := id
  tag := regbuf.tag
  will_init := regbuf.flags &&& REGBUF_WILL_INIT == REGBUF_WILL_INIT
  has_image := backup || check
  has_data := if regbuf.rdata_len = 0 then false
    else if regbuf.flags &&& REGBUF_KEEP_DATA ≠ 0 then true
    else !backup
  apply := backup

/-- The loop of `XLogRecordAssemble` over the registered buffers. `check` is
`XLR_CHECK_CONSISTENCY`. -/
def assembleLoop (check : Bool) (lsn : τ → ℕ) (RedoRecPtr : ℕ) (doPageWrites : Bool) :
    ℕ → List (registered_buffer τ) → Assembly τ → Assembly τ
  | _, [], acc => acc
  | block_id, regbuf :: rest, acc =>
      if !regbuf.in_use then
        assembleLoop check lsn RedoRecPtr doPageWrites (block_id + 1) rest acc
      else
        let backup := needs_backup lsn RedoRecPtr doPageWrites regbuf
        assembleLoop check lsn RedoRecPtr doPageWrites (block_id + 1) rest
          { blocks := acc.blocks ++ [blockReference check backup block_id regbuf]
            fpw_lsn := leaveOut lsn doPageWrites backup regbuf acc.fpw_lsn
            num_fpi := if backup || check then acc.num_fpi + 1 else acc.num_fpi }

def XLogRecordAssemble (check : Bool) (lsn : τ → ℕ) (RedoRecPtr : ℕ) (doPageWrites : Bool)
    (registered_buffers : List (registered_buffer τ)) : Assembly τ :=
  assembleLoop check lsn RedoRecPtr doPageWrites 0 registered_buffers ⟨[], InvalidXLogRecPtr, 0⟩

/-- The check of `XLogInsertRecord` under the insertion lock. -/
def mustRetry (prevDoPageWrites doPageWrites : Bool) (fpw_lsn RedoRecPtr : ℕ) : Bool :=
  doPageWrites && (!prevDoPageWrites ||
    (decide (fpw_lsn ≠ InvalidXLogRecPtr) && decide (fpw_lsn ≤ RedoRecPtr)))

/-! ### What the loop computes -/

variable {check : Bool} {lsn : τ → ℕ} {RedoRecPtr : ℕ} {doPageWrites : Bool}
  {bufs : List (registered_buffer τ)} {regbuf : registered_buffer τ} {lsn' : τ → ℕ}

/-- The record depends on the LSNs of the registered pages only. -/
theorem assembleLoop_congr
    (h : ∀ regbuf ∈ bufs, regbuf.in_use = true → lsn' regbuf.tag = lsn regbuf.tag) :
    ∀ (block_id : ℕ) (acc : Assembly τ),
      assembleLoop check lsn' RedoRecPtr doPageWrites block_id bufs acc =
        assembleLoop check lsn RedoRecPtr doPageWrites block_id bufs acc := by
  induction bufs with
  | nil => exact fun _ _ => rfl
  | cons regbuf rest ih =>
    intro block_id acc
    have ih := ih fun buf hbuf => h buf (mem_cons_of_mem _ hbuf)
    rw [assembleLoop, assembleLoop]
    cases huse : regbuf.in_use with
    | true =>
      have hlsn := h regbuf mem_cons_self huse
      have hbackup : needs_backup lsn' RedoRecPtr doPageWrites regbuf =
          needs_backup lsn RedoRecPtr doPageWrites regbuf := by
        rw [needs_backup, needs_backup, hlsn]
      have hleave (backup : Bool) : leaveOut lsn' doPageWrites backup regbuf acc.fpw_lsn =
          leaveOut lsn doPageWrites backup regbuf acc.fpw_lsn := by
        rw [leaveOut, leaveOut, hlsn]
      simp only [hbackup, hleave, ih]
    | false => simp [ih]

/-- The block references of a record, one for each buffer in use. -/
theorem assembleLoop_blocks (bufs : List (registered_buffer τ)) :
    ∀ (block_id : ℕ) (acc : Assembly τ),
      (assembleLoop check lsn RedoRecPtr doPageWrites block_id bufs acc).blocks =
        acc.blocks ++ (bufs.zipIdx block_id).filterMap fun p => if p.1.in_use then
            some (blockReference check (needs_backup lsn RedoRecPtr doPageWrites p.1) p.2 p.1)
          else none := by
  induction bufs with
  | nil => exact fun _ _ => (append_nil _).symm
  | cons regbuf rest ih =>
    intro block_id acc
    rw [assembleLoop, zipIdx_cons, filterMap_cons]
    cases huse : regbuf.in_use with
    | false => exact ih (block_id + 1) acc
    | true => exact (ih (block_id + 1) _).trans (append_assoc ..)

/-- An old page needs an image, unless it is marked. -/
theorem needs_backup_old (hno : regbuf.flags &&& REGBUF_NO_IMAGE = 0)
    (hold : lsn regbuf.tag ≤ RedoRecPtr) : needs_backup lsn RedoRecPtr true regbuf = true := by
  simp [needs_backup, hno, hold]

/-- With full-page writes, the LSN decides about a page that is not marked. -/
theorem needs_backup_byLSN (h : regbuf.byLSN = true) :
    needs_backup lsn RedoRecPtr true regbuf = decide (lsn regbuf.tag ≤ RedoRecPtr) := by
  simp only [registered_buffer.byLSN, Bool.and_eq_true, beq_iff_eq] at h
  simp [needs_backup, h.1, h.2]

/-- The marks of a page decide, if the LSN does not. -/
theorem needs_backup_marked {RedoRecPtr' : ℕ} (h : regbuf.byLSN = false) :
    needs_backup lsn RedoRecPtr doPageWrites regbuf =
      needs_backup lsn' RedoRecPtr' doPageWrites regbuf := by
  rw [needs_backup, needs_backup]
  by_cases hforce : regbuf.flags &&& REGBUF_FORCE_IMAGE ≠ 0
  · rw [if_pos hforce, if_pos hforce]
  · have hno : regbuf.flags &&& REGBUF_NO_IMAGE ≠ 0 := by
      intro hno
      rw [registered_buffer.byLSN, not_not.mp hforce, hno] at h
      cases h
    rw [if_neg hforce, if_neg hforce, if_pos hno, if_pos hno]

/-- A page that needs it is in the record. -/
theorem assemble_image {i : ℕ} (hget : bufs[i]? = some regbuf) (huse : regbuf.in_use = true)
    (hbackup : needs_backup lsn RedoRecPtr doPageWrites regbuf = true) :
    ∃ block ∈ (XLogRecordAssemble check lsn RedoRecPtr doPageWrites bufs).blocks,
      block.id = i ∧ block.tag = regbuf.tag ∧ block.has_image = true ∧ block.apply = true := by
  refine ⟨blockReference check true i regbuf, ?_, rfl, rfl, Bool.true_or check, rfl⟩
  rw [XLogRecordAssemble, assembleLoop_blocks, nil_append, mem_filterMap]
  refine ⟨(regbuf, i), List.mk_mem_zipIdx_iff_getElem?.mpr hget, ?_⟩
  simp [huse, hbackup]

/-- A page is left out because of its LSN. -/
def LeftOut (lsn : τ → ℕ) (RedoRecPtr : ℕ) (regbuf : registered_buffer τ) : Prop :=
  regbuf.in_use = true ∧ regbuf.byLSN = true ∧ RedoRecPtr < lsn regbuf.tag

/-- One more page: the smallest LSN does not grow, and it is not above the page. -/
theorem leaveOut_le (lsn : τ → ℕ) (RedoRecPtr : ℕ) (regbuf : registered_buffer τ) (fpw_lsn : ℕ) :
    let fpw_lsn' := leaveOut lsn true (needs_backup lsn RedoRecPtr true regbuf) regbuf fpw_lsn
    (0 < fpw_lsn → 0 < fpw_lsn' ∧ fpw_lsn' ≤ fpw_lsn) ∧
      (LeftOut lsn RedoRecPtr regbuf → 0 < fpw_lsn' ∧ fpw_lsn' ≤ lsn regbuf.tag) := by
  simp only [leaveOut, LeftOut]
  cases hby : regbuf.byLSN with
  | false => exact ⟨fun h => ⟨h, le_rfl⟩, nofun⟩
  | true =>
    simp only [needs_backup_byLSN hby, Bool.true_and, Bool.not_eq_true',
      decide_eq_false_iff_not]
    by_cases hlt : lsn regbuf.tag ≤ RedoRecPtr
    · simp only [hlt, not_true_eq_false, if_false]
      omega
    · split_ifs with hmin
      · rw [InvalidXLogRecPtr] at hmin
        omega
      · rw [InvalidXLogRecPtr] at hmin
        omega

/-- **The record remembers the smallest LSN of the pages that are left out.** -/
theorem assembleLoop_fpw_lsn (check : Bool) (lsn : τ → ℕ) (RedoRecPtr : ℕ)
    (bufs : List (registered_buffer τ)) :
    ∀ (block_id : ℕ) (acc : Assembly τ),
      let fpw_lsn := (assembleLoop check lsn RedoRecPtr true block_id bufs acc).fpw_lsn
      (0 < acc.fpw_lsn → 0 < fpw_lsn ∧ fpw_lsn ≤ acc.fpw_lsn) ∧
        ∀ regbuf ∈ bufs, LeftOut lsn RedoRecPtr regbuf →
          0 < fpw_lsn ∧ fpw_lsn ≤ lsn regbuf.tag := by
  induction bufs with
  | nil => exact fun _ _ => ⟨fun h => ⟨h, le_rfl⟩, fun _ h => nomatch h⟩
  | cons regbuf rest ih =>
    intro block_id acc
    rw [assembleLoop]
    cases huse : regbuf.in_use with
    | false =>
      obtain ⟨hacc, hrest⟩ := ih (block_id + 1) acc
      refine ⟨hacc, forall_mem_cons.mpr ⟨?_, hrest⟩⟩
      exact fun hleft => absurd (huse.symm.trans hleft.1) Bool.false_ne_true
    | true =>
      obtain ⟨hkeep, hpage⟩ := leaveOut_le lsn RedoRecPtr regbuf acc.fpw_lsn
      set backup := needs_backup lsn RedoRecPtr true regbuf
      obtain ⟨hacc, hrest⟩ := ih (block_id + 1)
        ⟨acc.blocks ++ [blockReference check backup block_id regbuf],
          leaveOut lsn true backup regbuf acc.fpw_lsn,
          if backup || check then acc.num_fpi + 1 else acc.num_fpi⟩
      refine ⟨fun h => ?_, forall_mem_cons.mpr ⟨fun h => ?_, hrest⟩⟩
      · exact (hacc (hkeep h).1).imp_right (·.trans (hkeep h).2)
      · exact (hacc (hpage h).1).imp_right (·.trans (hpage h).2)

/-- **A record that passes the check is the one that the values in force give**, if full-page writes
are on. -/
theorem assemble_uptodate {redo : ℕ} {prevDoPageWrites : Bool} (hle : RedoRecPtr ≤ redo)
    (h : mustRetry prevDoPageWrites true
      (XLogRecordAssemble check lsn RedoRecPtr prevDoPageWrites bufs).fpw_lsn redo = false) :
    (XLogRecordAssemble check lsn RedoRecPtr prevDoPageWrites bufs).blocks =
      (XLogRecordAssemble check lsn redo true bufs).blocks := by
  cases prevDoPageWrites with
  | false => cases h
  | true =>
    have hleft := (assembleLoop_fpw_lsn check lsn RedoRecPtr bufs 0 ⟨[], InvalidXLogRecPtr, 0⟩).2
    simp only [XLogRecordAssemble] at h ⊢
    generalize (assembleLoop check lsn RedoRecPtr true 0 bufs _).fpw_lsn = fpw_lsn at h hleft
    rw [assembleLoop_blocks, assembleLoop_blocks]
    refine congrArg _ (filterMap_congr ?_)
    intro p hp
    have hmem : p.1 ∈ bufs := fst_mem_of_mem_zipIdx hp
    cases huse : p.1.in_use with
    | false => rfl
    | true =>
      suffices h : needs_backup lsn RedoRecPtr true p.1 = needs_backup lsn redo true p.1 by
        rw [h]
      cases hby : p.1.byLSN with
      | false => exact needs_backup_marked hby
      | true =>
        rw [needs_backup_byLSN hby, needs_backup_byLSN hby, decide_eq_decide]
        refine ⟨hle.trans', fun hredo => ?_⟩
        by_contra hlt
        have hfpw := hleft p.1 hmem ⟨huse, hby, Nat.not_le.mp hlt⟩
        simp only [mustRetry, Bool.not_true, Bool.false_or, Bool.true_and,
          Bool.and_eq_false_iff, decide_eq_false_iff_not] at h
        rw [InvalidXLogRecPtr] at h
        omega

end FdPostgres.Wal
