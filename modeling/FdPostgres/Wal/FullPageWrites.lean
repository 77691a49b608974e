import FdPostgres.Wal.Assemble

/-!
# Full-Page Writes

Backends insert records into the log while checkpoints move the redo pointer and full-page writes
are switched on and off. A record is assembled from values that the backend remembers. It is
inserted under an insertion lock, with which the backend compares them with the values in force; who
changes these has all the insertion locks.

The number of backends and of insertion locks is not bounded. Space is reserved as long as its
locations are below `2 ^ 64`. What a backend does between taking an insertion lock and reserving
space, or while it has all of them, is one step. The lock of a page is held by one backend, and its
LSN is set under that lock to the end of the record that changed it.

* `Step`: the system of backends.
* `Inv`: the LSN of a page is the end of its last change, unless it is still to be set.
* `inserted_uptodate`: **the first change of a page after a checkpoint has an image of it**, and
  with full-page writes every record is the one that the values in force give.
* `log_in_order`: **records fill the log without gaps or overlaps.**
-/

namespace FdPostgres.Wal

open List

open Function (update update_self update_of_ne forall_update_iff)

variable {τ : Type*} [DecidableEq τ]

/-- A record in the log, with the values that were in force when its space was reserved. -/
structure Record (τ : Type*) where
  StartPos : ℕ
  EndPos : ℕ
  RedoRecPtr : ℕ
  pageWrites : Bool
  check : Bool
  bufs : List (registered_buffer τ)
  blocks : List (BlockReference τ)

/-- The pages that a record changes. -/
def changedPages (bufs : List (registered_buffer τ)) : List τ :=
  (bufs.filter fun regbuf => regbuf.in_use && regbuf.changed).map registered_buffer.tag

/-- The start and the end of the last record that changed a page. The newest record is first, and
`old` tells of the changes before the log. -/
def lastChange (old : τ → ℕ × ℕ) : List (Record τ) → τ → ℕ × ℕ
  | [], t => old t
  | r :: before, t =>
      if t ∈ changedPages r.bufs then (r.StartPos, r.EndPos) else lastChange old before t

/-- Where a backend is in `XLogInsert`. -/
inductive Pc (τ : Type*)
  /-- Not inserting. -/
  | idle
  /-- The buffers are registered. -/
  | registered (bufs : List (registered_buffer τ)) (check : Bool)
  /-- `XLogRecordAssemble` has returned. -/
  | assembled (bufs : List (registered_buffer τ)) (check : Bool) (rec : Assembly τ)
  /-- With an insertion lock, and the check is passed. -/
  | locked (bufs : List (registered_buffer τ)) (check : Bool) (rec : Assembly τ)
  /-- With an insertion lock, and space is reserved. -/
  | copying (EndPos : ℕ) (pages : List τ)
  /-- `XLogInsert` has returned, and these pages have not got their LSN. -/
  | inserted (EndPos : ℕ) (pages : List τ)

/-- A backend: its copies of the redo pointer and of the switch. -/
structure Backend (τ : Type*) where
  RedoRecPtr : ℕ
  doPageWrites : Bool
  pc : Pc τ

/-- The backend has an insertion lock. -/
def Backend.holdsLock (x : Backend τ) : Bool :=
  match x.pc with
  | .locked .. | .copying .. => true
  | _ => false

/-- The pages that have not got the LSN of the last record. -/
def Backend.pending (x : Backend τ) : List τ :=
  match x.pc with
  | .copying _ pages | .inserted _ pages => pages
  | _ => []

/-- The system: `Insert`, the copy `XLogCtl->RedoRecPtr` and what a checkpoint has not yet copied to
it, the pages with their LSNs and locks, the backends and the log. -/
structure Sys (τ : Type*) where
  CurrBytePos : ℕ
  RedoRecPtr : ℕ
  fullPageWrites : Bool
  forcePageWrites : Bool
  ctlRedoRecPtr : ℕ
  checkPoint : Option ℕ
  lsn : τ → ℕ
  owner : τ → Option ℕ
  backends : ℕ → Backend τ
  old : τ → ℕ × ℕ
  log : List (Record τ)

namespace Sys

variable (s : Sys τ)

/-- The value of `doPageWrites` in force. -/
def pageWrites : Bool := s.fullPageWrites || s.forcePageWrites

/-- The last change of a page. -/
def last : τ → ℕ × ℕ := lastChange s.old s.log

/-- A step of one backend. -/
def setBackend (b : ℕ) (x : Backend τ) : Sys τ :=
  { s with backends := update s.backends b x }

/-- The backend has the locks of the registered pages. -/
def Owns (b : ℕ) (bufs : List (registered_buffer τ)) : Prop :=
  ∀ regbuf ∈ bufs, regbuf.in_use = true → s.owner regbuf.tag = some b

/-- All the insertion locks can be taken. -/
def Unlocked : Prop := ∀ b, (s.backends b).holdsLock = false

/-- The record that a backend has reserved space for. -/
def record (StartPos EndPos : ℕ) (check : Bool) (bufs : List (registered_buffer τ))
    (blocks : List (BlockReference τ)) : Record τ :=
  ⟨StartPos, EndPos, s.RedoRecPtr, s.pageWrites, check, bufs, blocks⟩

end Sys

def GetRedoRecPtr (RedoRecPtr ptr : ℕ) : ℕ := if RedoRecPtr < ptr then ptr else RedoRecPtr

variable (wal_segment_size : WalSegSize)

/-- The redo pointer of `CreateCheckPoint`. -/
def checkPointRedo (CurrBytePos : ℕ) : ℕ :=
  let curInsert := XLogBytePosToRecPtr wal_segment_size CurrBytePos
  if INSERT_FREESPACE curInsert = 0 then
    if XLogSegmentOffset wal_segment_size curInsert = 0 then curInsert + SizeOfXLogLongPHD
    else curInsert + SizeOfXLogShortPHD
  else curInsert

/-- What the check of `XLogInsertRecord` leaves: the values in force are copied, and the record is
assembled again if they require it. -/
def recheck (s : Sys τ) (x : Backend τ) (bufs : List (registered_buffer τ)) (check : Bool)
    (rec : Assembly τ) : Backend τ where
  RedoRecPtr := s.RedoRecPtr
  doPageWrites := s.pageWrites
  pc :=
    if mustRetry x.doPageWrites s.pageWrites rec.fpw_lsn s.RedoRecPtr then .registered bufs check
    else .locked bufs check rec

/-- **The steps of the system**, each as long as its locks let nobody else interfere. -/
inductive Step (s : Sys τ) : Sys τ → Prop
  /-- A page is locked. -/
  | lockPage (b : ℕ) (t : τ) (hpc : (s.backends b).pc = .idle) (hfree : s.owner t = none) :
      Step s { s with owner := update s.owner t (some b) }
  /-- A page is unlocked. -/
  | unlockPage (b : ℕ) (t : τ) (hpc : (s.backends b).pc = .idle) (hown : s.owner t = some b) :
      Step s { s with owner := update s.owner t none }
  /-- `GetRedoRecPtr`. -/
  | getRedoRecPtr (b : ℕ) :
      Step s (s.setBackend b { s.backends b with
        RedoRecPtr := GetRedoRecPtr (s.backends b).RedoRecPtr s.ctlRedoRecPtr })
  /-- `InitXLOGAccess`, which reads the switch without a lock. -/
  | initXLOGAccess (b : ℕ) (hpc : (s.backends b).pc = .idle) :
      Step s (s.setBackend b { s.backends b with doPageWrites := s.pageWrites })
  /-- `XLogRegisterBuffer`, for all the pages of a record. -/
  | register (b : ℕ) (bufs : List (registered_buffer τ)) (check : Bool)
      (hpc : (s.backends b).pc = .idle) (hown : s.Owns b bufs) :
      Step s (s.setBackend b { s.backends b with pc := .registered bufs check })
  /-- `XLogRecordAssemble`, from the values that `GetFullPageWriteInfo` gives. -/
  | assemble (b : ℕ) {bufs : List (registered_buffer τ)} {check : Bool}
      (hpc : (s.backends b).pc = .registered bufs check) :
      Step s (s.setBackend b { s.backends b with
        pc := .assembled bufs check (XLogRecordAssemble check s.lsn (s.backends b).RedoRecPtr
          (s.backends b).doPageWrites bufs) })
  /-- The check of `XLogInsertRecord` under an insertion lock. -/
  | recheck (b : ℕ) {bufs : List (registered_buffer τ)} {check : Bool} {rec : Assembly τ}
      (hpc : (s.backends b).pc = .assembled bufs check rec) :
      Step s (s.setBackend b (recheck s (s.backends b) bufs check rec))
  /-- `ReserveXLogInsertLocation`. -/
  | reserve (b : ℕ) {bufs : List (registered_buffer τ)} {check : Bool} {rec : Assembly τ}
      {size StartPos EndPos endbytepos : ℕ} (hpc : (s.backends b).pc = .locked bufs check rec)
      (hsize : SizeOfXLogRecord < MAXALIGN size)
      (h : ReserveXLogInsertLocation wal_segment_size s.CurrBytePos size =
        (StartPos, EndPos, endbytepos)) (hfits : EndPos < 2 ^ 64) :
      Step s { s with
        CurrBytePos := endbytepos
        backends := update s.backends b
          { s.backends b with pc := .copying EndPos (changedPages bufs) }
        log := s.record StartPos EndPos check bufs rec.blocks :: s.log }
  /-- The record is copied, and the insertion lock is released. -/
  | release (b : ℕ) {EndPos : ℕ} {pages : List τ}
      (hpc : (s.backends b).pc = .copying EndPos pages) :
      Step s (s.setBackend b { s.backends b with pc := .inserted EndPos pages })
  /-- `PageSetLSN`. -/
  | setLSN (b : ℕ) {EndPos : ℕ} {t : τ} {pages : List τ}
      (hpc : (s.backends b).pc = .inserted EndPos (t :: pages)) :
      Step s { s with
        lsn := update s.lsn t EndPos
        backends := update s.backends b
          { s.backends b with pc := .inserted EndPos pages } }
  /-- All the pages have their LSN. -/
  | finish (b : ℕ) {EndPos : ℕ} (hpc : (s.backends b).pc = .inserted EndPos []) :
      Step s (s.setBackend b { s.backends b with pc := .idle })
  /-- A switch to another segment, with all the insertion locks: a record without pages. -/
  | xlogSwitch (b : ℕ) {StartPos EndPos endbytepos : ℕ} (hpc : (s.backends b).pc = .idle)
      (hlocks : s.Unlocked)
      (h : ReserveXLogSwitch wal_segment_size s.CurrBytePos = some (StartPos, EndPos, endbytepos))
      (hfits : EndPos < 2 ^ 64) : Step s { s with
        CurrBytePos := endbytepos
        backends := update s.backends b ⟨s.RedoRecPtr, s.pageWrites, .idle⟩
        log := s.record StartPos EndPos false [] [] :: s.log }
  /-- `CreateCheckPoint` moves the redo pointer, with all the insertion locks. -/
  | checkPoint (b : ℕ) (hpc : (s.backends b).pc = .idle) (hlocks : s.Unlocked)
      (hnone : s.checkPoint = none) :
      Step s { s with
        RedoRecPtr := checkPointRedo wal_segment_size s.CurrBytePos
        checkPoint := some (checkPointRedo wal_segment_size s.CurrBytePos)
        backends := update s.backends b
          { s.backends b with RedoRecPtr := checkPointRedo wal_segment_size s.CurrBytePos } }
  /-- `CreateCheckPoint` copies it to where `GetRedoRecPtr` reads it. -/
  | publish {redo : ℕ} (h : s.checkPoint = some redo) :
      Step s { s with ctlRedoRecPtr := redo, checkPoint := none }
  /-- `UpdateFullPageWrites` and the start and the end of a backup, with all the insertion locks. -/
  | switchPageWrites (fullPageWrites forcePageWrites : Bool) (hlocks : s.Unlocked) :
      Step s { s with fullPageWrites := fullPageWrites, forcePageWrites := forcePageWrites }

/-- A state before the first insertion: every change of a page is in the log, and the redo pointer
is not inside of one. -/
structure Sys.Initial (s : Sys τ) : Prop where
  idle : ∀ b, (s.backends b).pc = .idle
  log : s.log = []
  checkPoint : s.checkPoint = none
  fits : XLogBytePosToRecPtr wal_segment_size s.CurrBytePos < 2 ^ 64
  redo : s.RedoRecPtr ≤ XLogBytePosToRecPtr wal_segment_size s.CurrBytePos
  local_le : ∀ b, (s.backends b).RedoRecPtr ≤ s.RedoRecPtr
  ctl_le : s.ctlRedoRecPtr ≤ s.RedoRecPtr
  old_le : ∀ t, (s.old t).2 ≤ XLogBytePosToEndRecPtr wal_segment_size s.CurrBytePos
  old_redo : ∀ t, (s.old t).1 < s.RedoRecPtr → (s.old t).2 ≤ s.RedoRecPtr
  lsn : ∀ t, s.lsn t = (s.old t).2

/-- The states of the system. -/
inductive Reachable : Sys τ → Prop
  | init {s : Sys τ} (h : s.Initial wal_segment_size) : Reachable s
  | step {s s' : Sys τ} (hs : Reachable s) (h : Step wal_segment_size s s') : Reachable s'

/-! ### The invariant -/

/-- What holds of a backend, by where it is in `XLogInsert`: it owns the pages of its record, and
the record was assembled from values that were in force. -/
def BackendInv (s : Sys τ) (b : ℕ) (x : Backend τ) : Prop :=
  match x.pc with
  | .idle => True
  | .registered bufs _ => s.Owns b bufs
  | .assembled bufs check rec => s.Owns b bufs ∧
      ∃ R ≤ s.RedoRecPtr, rec = XLogRecordAssemble check s.lsn R x.doPageWrites bufs
  | .locked bufs check rec => s.Owns b bufs ∧
      ∃ R ≤ s.RedoRecPtr, ∃ d, rec = XLogRecordAssemble check s.lsn R d bufs ∧
        mustRetry d s.pageWrites rec.fpw_lsn s.RedoRecPtr = false
  | .copying EndPos pages | .inserted EndPos pages =>
      ∀ t ∈ pages, s.owner t = some b ∧ (s.last t).2 = EndPos

/-- A record is built from the values in force, if full-page writes are on, and the redo pointer is
not inside of the last change of a page. -/
structure Record.Good (old : τ → ℕ × ℕ) (before : List (Record τ)) (r : Record τ) : Prop where
  fits : r.EndPos < 2 ^ 64
  redo_le : r.RedoRecPtr ≤ r.StartPos
  last_redo : ∀ t, (lastChange old before t).1 < r.RedoRecPtr →
    (lastChange old before t).2 ≤ r.RedoRecPtr
  on : r.pageWrites = true → r.blocks = (XLogRecordAssemble r.check
    (fun t => (lastChange old before t).2) r.RedoRecPtr true r.bufs).blocks
  off : r.pageWrites = false → ∃ R ≤ r.RedoRecPtr, ∃ d, r.blocks = (XLogRecordAssemble r.check
    (fun t => (lastChange old before t).2) R d r.bufs).blocks

/-- Every record is good. -/
def AllGood (old : τ → ℕ × ℕ) : List (Record τ) → Prop
  | [] => True
  | r :: before => r.Good old before ∧ AllGood old before

/-- **The invariant of the system**: redo pointers do not run ahead, the LSN of a page is that of
its last change unless its backend is about to set it, and every record is good. -/
structure Inv (s : Sys τ) : Prop where
  redo : s.RedoRecPtr ≤ XLogBytePosToRecPtr wal_segment_size s.CurrBytePos
  local_le : ∀ b, (s.backends b).RedoRecPtr ≤ s.RedoRecPtr
  ctl_le : s.ctlRedoRecPtr ≤ s.RedoRecPtr
  checkPoint_le : ∀ r, s.checkPoint = some r → r ≤ s.RedoRecPtr
  last_le : ∀ t, (s.last t).2 ≤ XLogBytePosToEndRecPtr wal_segment_size s.CurrBytePos
  last_redo : ∀ t, (s.last t).1 < s.RedoRecPtr → (s.last t).2 ≤ s.RedoRecPtr
  lsn : ∀ t, (∃ b, s.owner t = some b ∧ t ∈ (s.backends b).pending) ∨ s.lsn t = (s.last t).2
  backend : ∀ b, BackendInv s b (s.backends b)
  good : AllGood s.old s.log

variable {wal_segment_size} {seg : WalSegSize} {s s' : Sys τ} {b : ℕ} {x : Backend τ} {t : τ}
  {bufs : List (registered_buffer τ)}

/-- The pages of a backend are left alone, and the values in force do not change while it has an
insertion lock. -/
theorem BackendInv.frame (h : BackendInv s b x) (hpages : ∀ t, s.owner t = some b →
      s'.owner t = some b ∧ s'.lsn t = s.lsn t ∧ s'.last t = s.last t)
    (hredo : s.RedoRecPtr ≤ s'.RedoRecPtr)
    (hlock : x.holdsLock = true → s'.RedoRecPtr = s.RedoRecPtr ∧ s'.pageWrites = s.pageWrites) :
    BackendInv s' b x := by
  have howns {bufs : List (registered_buffer τ)} (h : s.Owns b bufs) : s'.Owns b bufs :=
    fun regbuf hbuf huse => (hpages _ (h regbuf hbuf huse)).1
  have hassemble {bufs : List (registered_buffer τ)} (check : Bool) (R : ℕ) (d : Bool)
      (h : s.Owns b bufs) :
      XLogRecordAssemble check s.lsn R d bufs = XLogRecordAssemble check s'.lsn R d bufs :=
    assembleLoop_congr (fun regbuf hbuf huse => (hpages _ (h regbuf hbuf huse)).2.1.symm) 0 _
  have hpend {EndPos : ℕ} {pages : List τ}
      (h : ∀ t ∈ pages, s.owner t = some b ∧ (s.last t).2 = EndPos) :
      ∀ t ∈ pages, s'.owner t = some b ∧ (s'.last t).2 = EndPos := by
    intro t ht
    obtain ⟨hown, -, hlast⟩ := hpages t (h t ht).1
    exact ⟨hown, hlast ▸ (h t ht).2⟩
  simp only [BackendInv, Backend.holdsLock] at h hlock ⊢
  cases hpc : x.pc with
  | idle => trivial
  | registered bufs check =>
    rw [hpc] at h
    exact howns h
  | assembled bufs check rec =>
    rw [hpc] at h
    obtain ⟨hown, R, hR, hrec⟩ := h
    exact ⟨howns hown, R, hR.trans hredo, hrec.trans (hassemble _ _ _ hown)⟩
  | locked bufs check rec =>
    rw [hpc] at h hlock
    obtain ⟨hown, R, hR, d, hrec, hretry⟩ := h
    obtain ⟨hsame, hwrites⟩ := hlock rfl
    refine ⟨howns hown, R, hR.trans hredo, d, hrec.trans (hassemble _ _ _ hown), ?_⟩
    rw [hsame, hwrites]
    exact hretry
  | copying EndPos pages | inserted EndPos pages =>
    rw [hpc] at h
    exact hpend h

/-! ### Steps -/

omit [DecidableEq τ] in
/-- A page of a backend that is still to get its LSN, behind a step of one backend. -/
theorem pending_update {c : ℕ} (hmem : t ∈ (s.backends c).pending) (hx : c = b → t ∈ x.pending) :
    t ∈ (update s.backends b x c).pending := by
  rcases eq_or_ne c b with rfl | hne
  · rw [update_self]
    exact hx rfl
  · rw [update_of_ne hne]
    exact hmem

/-- The copies of the redo pointer, behind a step of one backend. -/
theorem Inv.local_update (hs : Inv seg s) (hredo : x.RedoRecPtr ≤ s.RedoRecPtr) (c : ℕ)
    : (update s.backends b x c).RedoRecPtr ≤ s.RedoRecPtr :=
  (forall_update_iff s.backends fun _ y => y.RedoRecPtr ≤ s.RedoRecPtr).mpr
    ⟨hredo, fun c _ => hs.local_le c⟩ c

/-- A step of one backend keeps the invariant, if it forgets no page. -/
theorem Inv.setBackend (hs : Inv seg s) (hredo : x.RedoRecPtr ≤ s.RedoRecPtr)
    (hx : BackendInv s b x) (hpend : (s.backends b).pending ⊆ x.pending) :
    Inv seg (s.setBackend b x) := by
  refine ⟨hs.redo, hs.local_update hredo, hs.ctl_le, hs.checkPoint_le, hs.last_le, hs.last_redo,
    fun t => ?_, ?_, hs.good⟩
  · refine (hs.lsn t).imp_left ?_
    rintro ⟨c, hown, ht⟩
    exact ⟨c, hown, pending_update ht fun hc => hpend (hc ▸ ht)⟩
  · exact (forall_update_iff _ _).mpr ⟨hx, fun c _ => hs.backend c⟩

/-- A backend that waits for no LSN finds the ends of the last changes on its pages. -/
theorem Inv.lsn_owned (hs : Inv seg s) (hpend : (s.backends b).pending = [])
    (hown : s.owner t = some b) : s.lsn t = (s.last t).2 := by
  refine (hs.lsn t).resolve_left ?_
  rintro ⟨c, hc, ht⟩
  obtain rfl := Option.some.inj (hown.symm.trans hc)
  rw [hpend] at ht
  cases ht

/-- The lock of a page is taken or given back by a backend that is not inserting. -/
theorem Inv.setOwner (hs : Inv seg s) (hpc : (s.backends b).pc = .idle) {o : Option ℕ}
    (hown : ∀ c, s.owner t = some c → c = b) : Inv seg { s with owner := update s.owner t o } := by
  have hother {c : ℕ} (hne : c ≠ b) {u : τ} (hu : s.owner u = some c) :
      update s.owner t o u = some c := by
    rw [update_of_ne]
    · exact hu
    · rintro rfl
      exact hne (hown c hu)
  refine ⟨hs.redo, hs.local_le, hs.ctl_le, hs.checkPoint_le, hs.last_le, hs.last_redo, fun u => ?_,
    fun c => ?_, hs.good⟩
  · refine (hs.lsn u).imp_left ?_
    rintro ⟨c, hu, hmem⟩
    refine ⟨c, hother ?_ hu, hmem⟩
    rintro rfl
    rw [Backend.pending, hpc] at hmem
    cases hmem
  · rcases eq_or_ne c b with rfl | hne
    · rw [BackendInv, hpc]
      trivial
    · exact (hs.backend c).frame (fun u hu => ⟨hother hne hu, rfl, rfl⟩) le_rfl
        fun _ => ⟨rfl, rfl⟩

omit [DecidableEq τ] in
/-- A changed page is registered. -/
theorem Sys.Owns.changedPages (h : s.Owns b bufs) (ht : t ∈ changedPages bufs) :
    s.owner t = some b := by
  obtain ⟨regbuf, hbuf, rfl⟩ := mem_map.mp ht
  obtain ⟨hmem, hflags⟩ := mem_filter.mp hbuf
  exact h regbuf hmem (Bool.and_eq_true_iff.mp hflags).1

/-- A record at the current position, of pages that the backend has locked. -/
theorem Inv.insert (hs : Inv seg s) {r : Record τ} {endbytepos : ℕ}
    (hpend : (s.backends b).pending = []) (hredo : x.RedoRecPtr ≤ s.RedoRecPtr)
    (hpages : ∀ t ∈ changedPages r.bufs, s.owner t = some b ∧ t ∈ x.pending ∧
      r.EndPos = XLogBytePosToEndRecPtr seg endbytepos)
    (hx : ∀ s' : Sys τ, s'.owner = s.owner → s'.last = lastChange s.old (r :: s.log) →
      BackendInv s' b x) (hstart : r.StartPos = XLogBytePosToRecPtr seg s.CurrBytePos)
    (hcurr : s.CurrBytePos ≤ endbytepos) (hgood : r.Good s.old s.log) :
    Inv seg { s with
      CurrBytePos := endbytepos
      backends := update s.backends b x
      log := r :: s.log } := by
  have hsame {t : τ} (ht : t ∉ changedPages r.bufs) :
      lastChange s.old (r :: s.log) t = s.last t := if_neg ht
  have hnew {t : τ} (ht : t ∈ changedPages r.bufs) :
      lastChange s.old (r :: s.log) t = (r.StartPos, r.EndPos) := if_pos ht
  refine ⟨hs.redo.trans (recPtr_mono hcurr), hs.local_update hredo, hs.ctl_le, hs.checkPoint_le,
    fun t => ?_, fun t => ?_, fun t => ?_, ?_, hgood, hs.good⟩
  · by_cases ht : t ∈ changedPages r.bufs
    · exact (congrArg Prod.snd (hnew ht)).trans (hpages t ht).2.2 |>.le
    · exact (congrArg Prod.snd (hsame ht)).le.trans ((hs.last_le t).trans (endRecPtr_mono hcurr))
  · -- the record starts behind the redo pointer
    by_cases ht : t ∈ changedPages r.bufs
    · intro hlt
      exact absurd ((congrArg Prod.fst (hnew ht)).symm.trans_lt hlt)
        (Nat.not_lt.mpr (hstart ▸ hs.redo))
    · rw [Sys.last, hsame ht]
      exact hs.last_redo t
  · by_cases ht : t ∈ changedPages r.bufs
    · obtain ⟨hown, hmem, -⟩ := hpages t ht
      exact .inl ⟨b, hown, by simpa only [update_self] using hmem⟩
    · refine (hs.lsn t).imp ?_ fun hlsn => hlsn.trans (congrArg Prod.snd (hsame ht)).symm
      rintro ⟨c, hown, hmem⟩
      refine ⟨c, hown, pending_update hmem ?_⟩
      rintro rfl
      rw [hpend] at hmem
      cases hmem
  · refine (forall_update_iff _ _).mpr ⟨hx _ rfl rfl, fun c hne => ?_⟩
    refine (hs.backend c).frame (fun t hown => ⟨hown, rfl, hsame fun ht => hne ?_⟩)
      le_rfl fun _ => ⟨rfl, rfl⟩
    exact Option.some.inj (hown.symm.trans (hpages t ht).1)

/-- **A record that passes the check is good.** -/
theorem Inv.record_good (hs : Inv seg s) {check : Bool} {rec : Assembly τ}
    (hpc : (s.backends b).pc = .locked bufs check rec) {EndPos : ℕ} (hfits : EndPos < 2 ^ 64) :
    (s.record (XLogBytePosToRecPtr seg s.CurrBytePos) EndPos check bufs
      rec.blocks).Good s.old s.log := by
  have hb := hs.backend b
  rw [BackendInv, hpc] at hb
  obtain ⟨hown, R, hR, d, rfl, hretry⟩ := hb
  have hlsn (R : ℕ) (d : Bool) : XLogRecordAssemble check s.lsn R d bufs =
      XLogRecordAssemble check (fun t => (s.last t).2) R d bufs := by
    refine assembleLoop_congr (fun regbuf hbuf huse => ?_) 0 _
    exact hs.lsn_owned (by rw [Backend.pending, hpc]) (hown regbuf hbuf huse)
  refine ⟨hfits, hs.redo, hs.last_redo, fun hon => ?_, fun _ => ⟨R, hR, d, ?_⟩⟩
  · rw [show s.pageWrites = true from hon] at hretry
    exact (assemble_uptodate hR hretry).trans (congrArg Assembly.blocks (hlsn _ _))
  · exact congrArg Assembly.blocks (hlsn R d)

/-- A reservation. -/
theorem Inv.reserve (hs : Inv seg s) {check : Bool} {rec : Assembly τ}
    (hpc : (s.backends b).pc = .locked bufs check rec) {size : ℕ}
    (hfits : XLogBytePosToEndRecPtr seg (s.CurrBytePos + MAXALIGN size) < 2 ^ 64) : Inv seg { s with
      CurrBytePos := s.CurrBytePos + MAXALIGN size
      backends := update s.backends b { s.backends b with
        pc := .copying (XLogBytePosToEndRecPtr seg (s.CurrBytePos + MAXALIGN size))
          (changedPages bufs) }
      log := s.record (XLogBytePosToRecPtr seg s.CurrBytePos)
        (XLogBytePosToEndRecPtr seg (s.CurrBytePos + MAXALIGN size)) check bufs
        rec.blocks :: s.log } := by
  have hb := hs.backend b
  rw [BackendInv, hpc] at hb
  refine hs.insert (by rw [Backend.pending, hpc]) (hs.local_le b)
    (fun t ht => ⟨hb.1.changedPages ht, ht, rfl⟩) ?_ rfl (Nat.le_add_right _ _)
    (hs.record_good hpc hfits)
  intro s' howner hlast t ht
  refine ⟨howner ▸ hb.1.changedPages ht, ?_⟩
  rw [hlast]
  exact congrArg Prod.snd (if_pos ht)

/-- A page gets its LSN. -/
theorem Inv.setLSN (hs : Inv seg s) {EndPos : ℕ} {pages : List τ}
    (hpc : (s.backends b).pc = .inserted EndPos (t :: pages)) : Inv seg { s with
      lsn := update s.lsn t EndPos
      backends := update s.backends b
        { s.backends b with pc := .inserted EndPos pages } } := by
  have hb := hs.backend b
  rw [BackendInv, hpc] at hb
  obtain ⟨⟨hown, hlast⟩, hrest⟩ := forall_mem_cons.mp hb
  refine ⟨hs.redo, hs.local_update (hs.local_le b), hs.ctl_le, hs.checkPoint_le, hs.last_le,
    hs.last_redo, fun u => ?_, ?_, hs.good⟩
  · rcases eq_or_ne u t with rfl | hut
    · exact .inr ((update_self ..).trans hlast.symm)
    · refine (hs.lsn u).imp ?_ (update_of_ne hut ..).trans
      rintro ⟨c, hu, hmem⟩
      refine ⟨c, hu, pending_update hmem ?_⟩
      rintro rfl
      rw [Backend.pending, hpc] at hmem
      exact (mem_cons.mp hmem).resolve_left hut
  · refine (forall_update_iff _ _).mpr ⟨hrest, fun c hne => ?_⟩
    refine (hs.backend c).frame (fun u hu => ⟨hu, update_of_ne ?_ .., rfl⟩)
      le_rfl fun _ => ⟨rfl, rfl⟩
    rintro rfl
    exact hne (Option.some.inj (hu.symm.trans hown))

/-- The redo pointer of a checkpoint is where the next record starts. -/
theorem checkPointRedo_eq (CurrBytePos : ℕ) :
    checkPointRedo seg CurrBytePos =
      XLogBytePosToRecPtr seg CurrBytePos :=
  if_neg (freespace_recPtr CurrBytePos)

/-- A checkpoint. -/
theorem Inv.checkPoint (hs : Inv seg s) (hpc : (s.backends b).pc = .idle) (hlocks : s.Unlocked) :
    Inv seg { s with
      RedoRecPtr := checkPointRedo seg s.CurrBytePos
      checkPoint := some (checkPointRedo seg s.CurrBytePos)
      backends := update s.backends b
        { s.backends b with RedoRecPtr := checkPointRedo seg s.CurrBytePos } } := by
  rw [checkPointRedo_eq]
  have hmoved : Inv seg { s with
      RedoRecPtr := XLogBytePosToRecPtr seg s.CurrBytePos
      checkPoint := some (XLogBytePosToRecPtr seg s.CurrBytePos) } := by
    refine ⟨le_rfl, fun c => (hs.local_le c).trans hs.redo, hs.ctl_le.trans hs.redo,
      fun r hr => (Option.some.inj hr).ge, hs.last_le,
      fun t _ => (hs.last_le t).trans (endRecPtr_le_recPtr _ _), hs.lsn, fun c => ?_, hs.good⟩
    exact (hs.backend c).frame (fun t hown => ⟨hown, rfl, rfl⟩) hs.redo fun hlock =>
      absurd ((hlocks c).symm.trans hlock) Bool.false_ne_true
  refine hmoved.setBackend le_rfl ?_ (List.Subset.refl _)
  rw [BackendInv, hpc]
  trivial

/-- **Every step keeps the invariant.** -/
theorem Inv.step (hs : Inv seg s) (h : Step seg s s') : Inv seg s' := by
  cases h with
  | lockPage b t hpc hfree => exact hs.setOwner hpc fun c hc => by cases hfree.symm.trans hc
  | unlockPage b t hpc hown =>
    exact hs.setOwner hpc fun c hc => Option.some.inj (hc.symm.trans hown)
  | getRedoRecPtr b =>
    refine hs.setBackend ?_ (hs.backend b) (List.Subset.refl _)
    rw [GetRedoRecPtr]
    split
    · exact hs.ctl_le
    · exact hs.local_le b
  | initXLOGAccess b hpc =>
    refine hs.setBackend (hs.local_le b) ?_ (List.Subset.refl _)
    rw [BackendInv, hpc]
    trivial
  | register b bufs check hpc hown =>
    refine hs.setBackend (hs.local_le b) hown ?_
    rw [Backend.pending, hpc]
    exact nil_subset _
  | @assemble b bufs check hpc =>
    have hb := hs.backend b
    rw [BackendInv, hpc] at hb
    refine hs.setBackend (hs.local_le b) ⟨hb, _, hs.local_le b, rfl⟩ ?_
    rw [Backend.pending, hpc]
    exact nil_subset _
  | @recheck b bufs check rec hpc =>
    have hb := hs.backend b
    rw [BackendInv, hpc] at hb
    obtain ⟨hown, R, hR, hrec⟩ := hb
    refine hs.setBackend le_rfl ?_ ?_
    · simp only [BackendInv, Wal.recheck]
      cases hretry :
        mustRetry (s.backends b).doPageWrites s.pageWrites rec.fpw_lsn s.RedoRecPtr with
      | true => exact hown
      | false => exact ⟨hown, R, hR, _, hrec, hretry⟩
    · rw [Backend.pending, hpc]
      exact nil_subset _
  | @reserve b bufs check rec size StartPos EndPos endbytepos hpc hsize h hfits =>
    obtain ⟨rfl, rfl, rfl⟩ := h
    exact hs.reserve hpc hfits
  | release b hpc =>
    have hb := hs.backend b
    rw [BackendInv, hpc] at hb
    refine hs.setBackend (hs.local_le b) hb ?_
    rw [Backend.pending, hpc]
    exact List.Subset.refl _
  | setLSN b hpc => exact hs.setLSN hpc
  | finish b hpc =>
    refine hs.setBackend (hs.local_le b) trivial ?_
    rw [Backend.pending, hpc]
    exact nil_subset _
  | @xlogSwitch b StartPos EndPos endbytepos hpc hlocks h hfits =>
    obtain ⟨rfl, hcurr⟩ := switch_le h
    exact hs.insert (by rw [Backend.pending, hpc]) le_rfl (by rintro _ ⟨⟩) (fun _ _ _ => trivial)
      rfl hcurr ⟨hfits, hs.redo, hs.last_redo, fun _ => rfl, fun _ => ⟨_, le_rfl, true, rfl⟩⟩
  | checkPoint b hpc hlocks hnone => exact hs.checkPoint hpc hlocks
  | publish h =>
    exact { hs with ctl_le := hs.checkPoint_le _ h, checkPoint_le := by simp }
  | switchPageWrites fullPageWrites forcePageWrites hlocks =>
    refine ⟨hs.redo, hs.local_le, hs.ctl_le, hs.checkPoint_le, hs.last_le, hs.last_redo, hs.lsn,
      fun c => ?_, hs.good⟩
    refine (hs.backend c).frame (fun t hown => ⟨hown, rfl, rfl⟩) le_rfl fun hlock => ?_
    exact absurd ((hlocks c).symm.trans hlock) Bool.false_ne_true

/-- The invariant holds before the first insertion. -/
theorem Inv.init (h : s.Initial seg) : Inv seg s := by
  have hlast : s.last = s.old := by
    rw [Sys.last, h.log]
    rfl
  refine ⟨h.redo, h.local_le, h.ctl_le, fun r hr => ?_, ?_, ?_, fun t => .inr ?_, fun b => ?_, ?_⟩
  · cases h.checkPoint.symm.trans hr
  · rw [hlast]
    exact h.old_le
  · rw [hlast]
    exact h.old_redo
  · rw [hlast]
    exact h.lsn t
  · rw [BackendInv, h.idle b]
    trivial
  · rw [h.log]
    trivial

/-- **The invariant holds in every state.** -/
theorem Reachable.inv (h : Reachable seg s) : Inv seg s := by
  induction h with
  | init h => exact .init h
  | step _ h ih => exact ih.step h

/-! ### The records of the log -/

/-- Every record of the log is good. -/
theorem AllGood.mem {old : τ → ℕ × ℕ} {r : Record τ} {before : List (Record τ)} :
    ∀ {after : List (Record τ)}, AllGood old (after ++ r :: before) → r.Good old before
  | [], h => h.1
  | _ :: _, h => AllGood.mem h.2

/-- **The first change of a page after a checkpoint has an image of it.** Take any record, and the
redo pointer and the switch in force when it was inserted. Its locations have 64 bits, and it does
not start before the redo pointer. With full-page writes, it has an image, to be applied, of every
registered page that is not marked and whose last change starts before the redo pointer; and its
block references are those that the values in force give. Without, they are those that some values
give, of which the redo pointer is not behind the one in force. -/
theorem inserted_uptodate (h : Reachable wal_segment_size s) {after before : List (Record τ)}
    {r : Record τ} (hlog : s.log = after ++ r :: before) :
    r.EndPos < 2 ^ 64 ∧ r.RedoRecPtr ≤ r.StartPos ∧ (r.pageWrites = true →
        (∀ i regbuf, r.bufs[i]? = some regbuf → regbuf.in_use = true →
          regbuf.flags &&& REGBUF_NO_IMAGE = 0 →
          (lastChange s.old before regbuf.tag).1 < r.RedoRecPtr →
          ∃ block ∈ r.blocks, block.id = i ∧ block.tag = regbuf.tag ∧ block.has_image = true ∧
            block.apply = true) ∧
        r.blocks = (XLogRecordAssemble r.check (fun t => (lastChange s.old before t).2)
          r.RedoRecPtr r.pageWrites r.bufs).blocks) ∧
      (r.pageWrites = false → ∃ R ≤ r.RedoRecPtr, ∃ d, r.blocks = (XLogRecordAssemble r.check
        (fun t => (lastChange s.old before t).2) R d r.bufs).blocks) := by
  have hgood : r.Good s.old before := AllGood.mem (hlog ▸ h.inv.good)
  refine ⟨hgood.fits, hgood.redo_le, fun hon => ⟨fun i regbuf hget huse hno hlast => ?_, ?_⟩,
    hgood.off⟩
  · rw [hgood.on hon]
    exact assemble_image hget huse (needs_backup_old hno (hgood.last_redo _ hlast))
  · rw [hon]
    exact hgood.on hon

/-- A system of one page, changed before the redo pointer, and backends that do full-page writes. -/
def onePage : Sys Unit where
  CurrBytePos := 0
  RedoRecPtr := 40
  fullPageWrites := true
  forcePageWrites := false
  ctlRedoRecPtr := 40
  checkPoint := none
  lsn := fun _ => 0
  owner := fun _ => none
  backends := fun _ => ⟨40, true, .idle⟩
  old := fun _ => (0, 0)
  log := []

/-- The page, registered without marks. -/
def plainPage : registered_buffer Unit := ⟨true, 0, (), 0, true⟩

/-- The record of the page. -/
def pageRecord (fullPageWrites : Bool) : Record Unit :=
  ⟨40, 8312, 40, fullPageWrites, false, [plainPage], [⟨0, (), false, true, false, true⟩]⟩

theorem onePage_initial : onePage.Initial wal16MB where
  idle _ := rfl
  log := rfl
  checkPoint := rfl
  fits := by decide
  redo := by decide
  local_le _ := le_rfl
  ctl_le := le_rfl
  old_le _ := Nat.zero_le _
  old_redo _ _ := Nat.zero_le _
  lsn _ := rfl

/-- A backend assembles a record of the page, full-page writes are switched, and the record is
inserted with the image. -/
theorem onePage_run (fullPageWrites : Bool) :
    ∃ s : Sys Unit, Reachable wal16MB s ∧ s.old = onePage.old ∧
      s.log = [] ++ pageRecord fullPageWrites :: [] := by
  have h := (Reachable.init onePage_initial).step (.lockPage 0 () rfl rfl)
  have h := h.step (.register 0 [plainPage] false rfl fun _ _ _ => rfl)
  have h := h.step (.assemble 0 rfl)
  have h := h.step (.switchPageWrites fullPageWrites false fun b => by cases b <;> rfl)
  have h := h.step (.recheck 0 rfl)
  have hsize : ReserveXLogInsertLocation wal16MB 0 8241 = (40, 8312, 8248) := by decide
  cases fullPageWrites with
  | false | true => exact ⟨_, h.step (.reserve 0 rfl (by decide) hsize (by decide)), rfl, rfl⟩

/-- The page that was changed before the redo pointer is in the record. -/
theorem inserted_uptodate_one : ∃ s : Sys Unit, Reachable wal16MB s ∧
    s.log = [] ++ pageRecord true :: [] ∧ ∃ block ∈ (pageRecord true).blocks,
      block.id = 0 ∧ block.tag = () ∧ block.has_image = true ∧ block.apply = true := by
  obtain ⟨s, h, hold, hlog⟩ := onePage_run true
  refine ⟨s, h, hlog, ((inserted_uptodate h hlog).2.2.1 rfl).1 0 plainPage rfl rfl rfl ?_⟩
  rw [hold]
  decide

/-- **A record may be inserted that the values in force do not give:** full-page writes are switched
off when it is assembled, and it keeps its image. -/
theorem inserted_outdated : ∃ s : Sys Unit, Reachable wal16MB s ∧
    ∃ r, s.log = [] ++ r :: [] ∧ r.blocks ≠ (XLogRecordAssemble r.check
      (fun t => (lastChange s.old [] t).2) r.RedoRecPtr r.pageWrites r.bufs).blocks := by
  obtain ⟨s, h, hold, hlog⟩ := onePage_run false
  refine ⟨s, h, _, hlog, ?_⟩
  rw [hold]
  decide

/-! ### The order of the log -/

/-- The records are one behind the other up to a position, the newest one first. -/
structure InOrder (seg : WalSegSize) (log : List (Record τ)) (bytepos : ℕ) : Prop where
  next : log.IsChain fun r r' =>
    r.StartPos = XLogBytePosToRecPtr seg (XLogRecPtrToBytePos seg r'.EndPos)
  newest : ∀ r ∈ log.head?, r.EndPos = XLogBytePosToEndRecPtr seg bytepos
  disjoint : log.Pairwise fun r r' => r'.EndPos ≤ r.StartPos
  start_lt : ∀ r ∈ log, r.StartPos < r.EndPos
  end_le : ∀ r ∈ log, r.EndPos ≤ XLogBytePosToEndRecPtr seg bytepos
  fits : ∀ r ∈ log, r.EndPos < 2 ^ 64

omit [DecidableEq τ] in
/-- A record is put behind the others. -/
theorem InOrder.insert {log : List (Record τ)} {bytepos endbytepos : ℕ}
    (h : InOrder seg log bytepos) {r : Record τ}
    (hstart : r.StartPos = XLogBytePosToRecPtr seg bytepos)
    (hend : r.EndPos = XLogBytePosToEndRecPtr seg endbytepos) (hlt : r.StartPos < r.EndPos)
    (hle : bytepos ≤ endbytepos) (hfits : r.EndPos < 2 ^ 64) :
    InOrder seg (r :: log) endbytepos where
  next := by
    refine List.isChain_cons.mpr ⟨fun r' hr' => ?_, h.next⟩
    rw [h.newest r' hr', (recPtrToBytePos_recPtr _).2, hstart]
  newest := by
    rintro _ ⟨⟩
    exact hend
  disjoint := pairwise_cons.mpr ⟨fun r' hr' => hstart ▸ (h.end_le r' hr').trans
    (endRecPtr_le_recPtr seg bytepos), h.disjoint⟩
  start_lt := forall_mem_cons.mpr ⟨hlt, h.start_lt⟩
  end_le := forall_mem_cons.mpr ⟨hend.le, fun r' hr' => (h.end_le r' hr').trans
    (endRecPtr_mono hle)⟩
  fits := forall_mem_cons.mpr ⟨hfits, h.fits⟩

/-- **Every step keeps the records in order.** -/
theorem InOrder.step (hs : InOrder seg s.log s.CurrBytePos) (h : Step seg s s') :
    InOrder seg s'.log s'.CurrBytePos := by
  cases h with
  | reserve b hpc hsize h hfits =>
    obtain ⟨rfl, rfl, rfl⟩ := h
    exact hs.insert rfl rfl (recPtr_lt_endRecPtr (by omega)) (Nat.le_add_right _ _) hfits
  | xlogSwitch b hpc hlocks h hfits =>
    obtain ⟨hend, hlt⟩ := switch_end h
    exact hs.insert (switch_le h).1.symm hend hlt (switch_le h).2 hfits
  | _ => exact hs

/-- **In every run the records fill the log without gaps or overlaps**, in the order in which their
space was reserved: a record starts at the first byte behind the one before, and the newest one ends
at the current position, all below `2 ^ 64`. -/
theorem log_in_order {s : Sys τ} (h : Reachable wal_segment_size s) :
    InOrder wal_segment_size s.log s.CurrBytePos := by
  induction h with
  | init h =>
    rw [h.log]
    exact ⟨.nil, by simp, .nil, by simp, by simp, by simp⟩
  | step _ h ih => exact ih.step h

/-- A run in which one backend inserts a record and another one switches to the next segment; the
first one then changes the page again. -/
theorem log_in_order_switch : ∃ s : Sys Unit, Reachable wal16MB s ∧
    s.log.map (fun r => (r.StartPos, r.EndPos)) =
      [(16777256, 16777288), (8312, 16777216), (40, 8312)] ∧
    InOrder wal16MB s.log s.CurrBytePos := by
  have h := (Reachable.init onePage_initial).step (.lockPage 0 () rfl rfl)
  have h := h.step (.register 0 [plainPage] false rfl fun _ _ _ => rfl)
  have h := h.step (.assemble 0 rfl)
  have h := h.step (.recheck 0 rfl)
  have hfirst : ReserveXLogInsertLocation wal16MB 0 8241 = (40, 8312, 8248) := by decide
  have h := h.step (.reserve 0 rfl (by decide) hfirst (by decide))
  have h := (h.step (.release 0 rfl)).step (.setLSN 0 rfl)
  have h := h.step (.finish 0 rfl)
  have hswitch : ReserveXLogSwitch wal16MB 8248 = some (8312, 16777216, 16728048) := by decide
  have h := h.step (.xlogSwitch 1 rfl (fun b => by cases b <;> rfl) hswitch (by decide))
  have h := h.step (.register 0 [plainPage] false rfl fun _ _ _ => rfl)
  have h := (h.step (.assemble 0 rfl)).step (.recheck 0 rfl)
  have hlast : ReserveXLogInsertLocation wal16MB 16728048 30 = (16777256, 16777288, 16728080) := by
    decide
  have h := h.step (.reserve 0 rfl (by decide) hlast (by decide))
  exact ⟨_, h, rfl, log_in_order h⟩

end FdPostgres.Wal
