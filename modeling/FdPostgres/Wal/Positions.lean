import Mathlib

/-!
# Positions in the Log

Space in the log is reserved in bytes that can be used for records, and records are found by
locations, which also count the headers of pages: a long one at the start of each segment and a
short one on every other page. Both are numbers of 64 bits. Here they are natural numbers, which is
the same as long as the locations are below `2 ^ 64`: everything that is computed on the way to a
location is smaller (`le_recPtr`, `recPtrToBytePos_le`).

* `XLogBytePosToRecPtr`, `XLogBytePosToEndRecPtr`, `XLogRecPtrToBytePos`: the conversions.
* `ReserveXLogInsertLocation`, `ReserveXLogSwitch`: the space of a record.
* `recPtr_lt_endRecPtr`: **a record ends behind the start of every earlier one.**
* `recPtr_bijective`: **bytes and locations behind headers are one to one.**
-/

namespace FdPostgres.Wal

open Nat

def XLOG_BLCKSZ : ℕ := 8192

def SizeOfXLogShortPHD : ℕ := 24

def SizeOfXLogLongPHD : ℕ := 40

def SizeOfXLogRecord : ℕ := 24

def MAXALIGN (len : ℕ) : ℕ := (len + 7) / 8 * 8

def UsableBytesInPage : ℕ := XLOG_BLCKSZ - SizeOfXLogShortPHD

/-- A size of segments that `IsValidWalSegSize` accepts. -/
structure WalSegSize where
  val : ℕ
  pow : ∃ k, val = 2 ^ k
  min_le : 2 ^ 20 ≤ val
  le_max : val ≤ 2 ^ 30

variable (wal_segment_size : WalSegSize)

def UsableBytesInSegment : ℕ :=
  wal_segment_size.val / XLOG_BLCKSZ * UsableBytesInPage - (SizeOfXLogLongPHD - SizeOfXLogShortPHD)

def XLogSegmentOffset (xlogptr : ℕ) : ℕ := xlogptr &&& (wal_segment_size.val - 1)

def INSERT_FREESPACE (endptr : ℕ) : ℕ :=
  if endptr % XLOG_BLCKSZ = 0 then 0 else XLOG_BLCKSZ - endptr % XLOG_BLCKSZ

def XLogBytePosToRecPtr (bytepos : ℕ) : ℕ :=
  let fullsegs := bytepos / UsableBytesInSegment wal_segment_size
  let bytesleft := bytepos % UsableBytesInSegment wal_segment_size
  let seg_offset :=
    if bytesleft < XLOG_BLCKSZ - SizeOfXLogLongPHD then bytesleft + SizeOfXLogLongPHD
    else
      let bytesleft := bytesleft - (XLOG_BLCKSZ - SizeOfXLogLongPHD)
      XLOG_BLCKSZ + (bytesleft / UsableBytesInPage * XLOG_BLCKSZ + bytesleft % UsableBytesInPage +
        SizeOfXLogShortPHD)
  fullsegs * wal_segment_size.val + seg_offset

/-- `XLogBytePosToEndRecPtr`: at the start of a page, the location is before its header. -/
def XLogBytePosToEndRecPtr (bytepos : ℕ) : ℕ :=
  let fullsegs := bytepos / UsableBytesInSegment wal_segment_size
  let bytesleft := bytepos % UsableBytesInSegment wal_segment_size
  let seg_offset :=
    if bytesleft < XLOG_BLCKSZ - SizeOfXLogLongPHD then
      if bytesleft = 0 then 0 else bytesleft + SizeOfXLogLongPHD
    else
      let bytesleft := bytesleft - (XLOG_BLCKSZ - SizeOfXLogLongPHD)
      let fullpages := bytesleft / UsableBytesInPage
      let bytesleft := bytesleft % UsableBytesInPage
      if bytesleft = 0 then XLOG_BLCKSZ + (fullpages * XLOG_BLCKSZ + bytesleft)
      else XLOG_BLCKSZ + (fullpages * XLOG_BLCKSZ + bytesleft + SizeOfXLogShortPHD)
  fullsegs * wal_segment_size.val + seg_offset

def XLogRecPtrToBytePos (ptr : ℕ) : ℕ :=
  let fullsegs := ptr / wal_segment_size.val
  let fullpages := XLogSegmentOffset wal_segment_size ptr / XLOG_BLCKSZ
  let offset := ptr % XLOG_BLCKSZ
  if fullpages = 0 then
    fullsegs * UsableBytesInSegment wal_segment_size +
      if offset > 0 then offset - SizeOfXLogLongPHD else 0
  else
    fullsegs * UsableBytesInSegment wal_segment_size + (XLOG_BLCKSZ - SizeOfXLogLongPHD) +
      (fullpages - 1) * UsableBytesInPage + if offset > 0 then offset - SizeOfXLogShortPHD else 0

/-- `ReserveXLogInsertLocation`: the start and the end of the record and the new `CurrBytePos`. -/
def ReserveXLogInsertLocation (CurrBytePos size : ℕ) : ℕ × ℕ × ℕ :=
  let endbytepos := CurrBytePos + MAXALIGN size
  (XLogBytePosToRecPtr wal_segment_size CurrBytePos,
    XLogBytePosToEndRecPtr wal_segment_size endbytepos, endbytepos)

/-- `ReserveXLogSwitch`: the rest of the segment is reserved too, and nothing at the start of a
segment. -/
def ReserveXLogSwitch (CurrBytePos : ℕ) : Option (ℕ × ℕ × ℕ) :=
  let ptr := XLogBytePosToEndRecPtr wal_segment_size CurrBytePos
  if XLogSegmentOffset wal_segment_size ptr = 0 then none
  else
    let endbytepos := CurrBytePos + MAXALIGN SizeOfXLogRecord
    let StartPos := XLogBytePosToRecPtr wal_segment_size CurrBytePos
    let EndPos := XLogBytePosToEndRecPtr wal_segment_size endbytepos
    let segleft := wal_segment_size.val - XLogSegmentOffset wal_segment_size EndPos
    if segleft ≠ wal_segment_size.val then
      some (StartPos, EndPos + segleft, XLogRecPtrToBytePos wal_segment_size (EndPos + segleft))
    else some (StartPos, EndPos, endbytepos)

/-! ### The order of positions -/

variable {seg : WalSegSize}

/-- A segment has many pages. -/
theorem WalSegSize.pages (seg : WalSegSize) :
    ∃ n, 128 ≤ n ∧ seg.val = n * 8192 ∧
      UsableBytesInSegment seg + 16 = n * 8168 := by
  obtain ⟨k, hk⟩ := seg.pow
  have hmin := seg.min_le
  have hk20 : 20 ≤ k := by
    by_contra hlt
    have hpow : 2 ^ k < 2 ^ 20 := Nat.pow_lt_pow_right (by decide) (by omega)
    omega
  obtain ⟨j, rfl⟩ : ∃ j, k = j + 13 := ⟨k - 13, by omega⟩
  rw [pow_add] at hk
  refine ⟨2 ^ j, by omega, hk, ?_⟩
  simp only [UsableBytesInSegment, XLOG_BLCKSZ, UsableBytesInPage, SizeOfXLogLongPHD,
    SizeOfXLogShortPHD]
  omega

/-- The offset in a segment is the remainder. -/
theorem segmentOffset_eq (ptr : ℕ) : XLogSegmentOffset seg ptr = ptr % seg.val := by
  obtain ⟨k, hk⟩ := seg.pow
  rw [XLogSegmentOffset, hk, and_two_pow_sub_one_eq_mod]

/-- The locations of a byte: the pages before it are full, and it is behind the header of its own;
as an end it may be before the header. -/
theorem recPtr_eq (seg : WalSegSize) (bytepos : ℕ) :
    ∃ x, x = bytepos % UsableBytesInSegment seg + 16 ∧ XLogBytePosToRecPtr seg bytepos =
        bytepos / UsableBytesInSegment seg * seg.val + (x / 8168 * 8192 + x % 8168 + 24) ∧
      XLogBytePosToEndRecPtr seg bytepos = bytepos / UsableBytesInSegment seg * seg.val +
          (if x = 16 then 0 else if x % 8168 = 0 then x / 8168 * 8192
            else x / 8168 * 8192 + x % 8168 + 24) := by
  refine ⟨_, rfl, ?_⟩
  dsimp only [XLogBytePosToRecPtr, XLogBytePosToEndRecPtr]
  generalize bytepos % UsableBytesInSegment seg = bytesleft
  have hconst : XLOG_BLCKSZ - SizeOfXLogLongPHD = 8152 ∧ UsableBytesInPage = 8168 := ⟨rfl, rfl⟩
  rw [hconst.2, XLOG_BLCKSZ, SizeOfXLogLongPHD, SizeOfXLogShortPHD]
  by_cases hfirst : bytesleft < 8152
  · rw [if_pos hfirst, if_pos hfirst]
    refine ⟨by omega, ?_⟩
    by_cases hzero : bytesleft = 0
    · rw [if_pos hzero, if_pos (by omega)]
    · rw [if_neg hzero, if_neg (by omega), if_neg (by omega)]
      omega
  · rw [if_neg hfirst, if_neg hfirst]
    by_cases hzero : (bytesleft - 8152) % 8168 = 0
    · rw [if_pos hzero, if_neg (by omega), if_pos (by omega)]
      omega
    · rw [if_neg hzero, if_neg (by omega), if_neg (by omega)]
      omega

/-- A byte is in its segment. -/
theorem offset_lt (bytepos : ℕ) {x : ℕ} (hx : x = bytepos % UsableBytesInSegment seg + 16) :
    x / 8168 * 8192 + x % 8168 + 24 < seg.val := by
  obtain ⟨n, hn, hval, husable⟩ := seg.pages
  have hlt := mod_lt bytepos (show 0 < UsableBytesInSegment seg by omega)
  omega

/-- The end of a record is not behind the start of the next one. -/
theorem endRecPtr_le_recPtr (seg : WalSegSize) (bytepos : ℕ) :
    XLogBytePosToEndRecPtr seg bytepos ≤
      XLogBytePosToRecPtr seg bytepos := by
  obtain ⟨x, hx, hstart, hend⟩ := recPtr_eq seg bytepos
  rw [hend]
  repeat' split
  all_goals omega

/-- **A record ends behind the start of every earlier one.** -/
theorem recPtr_lt_endRecPtr {p q : ℕ} (hlt : p < q) :
    XLogBytePosToRecPtr seg p < XLogBytePosToEndRecPtr seg q := by
  obtain ⟨x, hx, hstart, -⟩ := recPtr_eq seg p
  obtain ⟨y, hy, -, hend⟩ := recPtr_eq seg q
  have hoff := offset_lt p hx
  rw [hstart, hend]
  rcases lt_or_ge (p / UsableBytesInSegment seg)
    (q / UsableBytesInSegment seg) with hseg | hseg
  · have hmul := Nat.mul_le_mul_right seg.val hseg
    rw [Nat.succ_mul] at hmul
    omega
  · -- both are in one segment
    have hsame : p / UsableBytesInSegment seg = q / UsableBytesInSegment seg :=
      le_antisymm (Nat.div_le_div_right hlt.le) hseg
    have hp := Nat.div_add_mod p (UsableBytesInSegment seg)
    have hq := Nat.div_add_mod q (UsableBytesInSegment seg)
    rw [hsame] at hp ⊢
    rw [if_neg (by omega)]
    split <;> omega

/-- Starts of records are in the order of the bytes. -/
theorem recPtr_mono {p q : ℕ} (hle : p ≤ q) :
    XLogBytePosToRecPtr seg p ≤ XLogBytePosToRecPtr seg q := by
  rcases eq_or_lt_of_le hle with rfl | hlt
  · exact le_rfl
  · exact (recPtr_lt_endRecPtr hlt).le.trans (endRecPtr_le_recPtr _ q)

/-- Ends of records are in the order of the bytes. -/
theorem endRecPtr_mono {p q : ℕ} (hle : p ≤ q) :
    XLogBytePosToEndRecPtr seg p ≤ XLogBytePosToEndRecPtr seg q := by
  rcases eq_or_lt_of_le hle with rfl | hlt
  · exact le_rfl
  · exact (endRecPtr_le_recPtr _ p).trans (recPtr_lt_endRecPtr hlt).le

/-- A record does not start at the start of a page. -/
theorem freespace_recPtr (bytepos : ℕ) :
    INSERT_FREESPACE (XLogBytePosToRecPtr seg bytepos) ≠ 0 := by
  obtain ⟨n, -, hval, -⟩ := seg.pages
  obtain ⟨x, -, hstart, -⟩ := recPtr_eq seg bytepos
  rw [hval, ← mul_assoc] at hstart
  rw [INSERT_FREESPACE, XLOG_BLCKSZ, if_neg (by omega)]
  omega

/-- The start of a segment. -/
theorem recPtrToBytePos_segment (k : ℕ) :
    XLogRecPtrToBytePos seg (k * seg.val) =
      k * UsableBytesInSegment seg := by
  obtain ⟨n, hn, hval, -⟩ := seg.pages
  have hoff : k * seg.val % XLOG_BLCKSZ = 0 := by
    rw [hval, ← mul_assoc]
    exact Nat.mul_mod_left _ _
  simp only [XLogRecPtrToBytePos, segmentOffset_eq, Nat.mul_mod_left, Nat.zero_div, hoff,
    lt_irrefl, if_true, if_false, add_zero]
  rw [Nat.mul_div_cancel _ (by omega)]

/-- A switch to another segment starts at the current position, and gives no space back. -/
theorem switch_le {CurrBytePos StartPos EndPos endbytepos : ℕ}
    (h : ReserveXLogSwitch seg CurrBytePos = some (StartPos, EndPos, endbytepos)) :
    XLogBytePosToRecPtr seg CurrBytePos = StartPos ∧ CurrBytePos ≤ endbytepos := by
  simp only [ReserveXLogSwitch] at h
  split at h
  · cases h
  split at h
  · -- the rest of the segment is skipped
    obtain ⟨rfl, -, rfl⟩ := Option.some.inj h
    refine ⟨rfl, ?_⟩
    obtain ⟨n, hn, hval, husable⟩ := seg.pages
    have hle : CurrBytePos ≤ CurrBytePos + MAXALIGN SizeOfXLogRecord := le_add_right _ _
    generalize CurrBytePos + MAXALIGN SizeOfXLogRecord = e at hle
    obtain ⟨x, hx, hstart, hend⟩ := recPtr_eq seg e
    generalize (if x = 16 then 0 else _) = offset at hend
    have hlt : offset < seg.val := by
      have hbef := endRecPtr_le_recPtr seg e
      have hoff := offset_lt e hx
      omega
    have hmod : XLogSegmentOffset seg
        (XLogBytePosToEndRecPtr seg e) = offset := by
      rw [segmentOffset_eq, hend, mul_comm, mul_add_mod, mod_eq_of_lt hlt]
    have hnext : e / UsableBytesInSegment seg * seg.val + offset + (seg.val - offset) =
          (e / UsableBytesInSegment seg + 1) * seg.val := by
      rw [succ_mul]
      omega
    rw [hmod, hend, hnext, recPtrToBytePos_segment]
    exact hle.trans ((div_lt_iff_lt_mul (by omega)).mp (lt_succ_self _)).le
  · obtain ⟨rfl, -, rfl⟩ := Option.some.inj h
    exact ⟨rfl, le_add_right _ _⟩

/-! ### Back from locations -/

/-- The byte of a location in a segment. -/
theorem recPtrToBytePos_add (k : ℕ) {o : ℕ} (ho : o < seg.val) :
    XLogRecPtrToBytePos seg (k * seg.val + o) = k * UsableBytesInSegment seg +
      if o < 8192 then o - 40 else 8152 + (o / 8192 - 1) * 8168 + (o % 8192 - 24) := by
  obtain ⟨n, -, hval, -⟩ := seg.pages
  have hseg : (k * seg.val + o) / seg.val = k := by
    rw [mul_comm, mul_add_div (by omega), Nat.div_eq_of_lt ho, add_zero]
  have hpage : XLogSegmentOffset seg (k * seg.val + o) = o := by
    rw [segmentOffset_eq, mul_comm, mul_add_mod, mod_eq_of_lt ho]
  have hoff : (k * seg.val + o) % 8192 = o % 8192 := by
    rw [hval, ← mul_assoc]
    omega
  simp only [XLogRecPtrToBytePos, XLOG_BLCKSZ, SizeOfXLogLongPHD, SizeOfXLogShortPHD,
    show UsableBytesInPage = 8168 from rfl, hseg, hpage, hoff]
  split_ifs <;> omega

theorem recPtrToBytePos_recPtr (bytepos : ℕ) :
    XLogRecPtrToBytePos seg (XLogBytePosToRecPtr seg bytepos) = bytepos ∧
      XLogRecPtrToBytePos seg (XLogBytePosToEndRecPtr seg bytepos) = bytepos := by
  obtain ⟨x, hx, hstart, hend⟩ := recPtr_eq seg bytepos
  have hoff := offset_lt bytepos hx
  have hle := endRecPtr_le_recPtr seg bytepos
  have hbytes := div_add_mod' bytepos (UsableBytesInSegment seg)
  constructor
  · rw [hstart, recPtrToBytePos_add _ hoff]
    split_ifs <;> omega
  · rw [hend, recPtrToBytePos_add _ (by omega)]
    split_ifs <;> omega

/-- A switch to another segment ends at the new position, behind its start. -/
theorem switch_end {CurrBytePos StartPos EndPos endbytepos : ℕ}
    (h : ReserveXLogSwitch seg CurrBytePos = some (StartPos, EndPos, endbytepos)) :
    EndPos = XLogBytePosToEndRecPtr seg endbytepos ∧ StartPos < EndPos := by
  have hlt : XLogBytePosToRecPtr seg CurrBytePos <
      XLogBytePosToEndRecPtr seg (CurrBytePos + MAXALIGN SizeOfXLogRecord) :=
    recPtr_lt_endRecPtr (lt_add_of_pos_right _ Nat.succ_pos')
  simp only [ReserveXLogSwitch] at h
  generalize he : XLogBytePosToEndRecPtr seg (CurrBytePos + MAXALIGN SizeOfXLogRecord) = e at h hlt
  split at h
  · cases h
  split at h
  · obtain ⟨rfl, rfl, rfl⟩ := Option.some.inj h
    obtain ⟨n, hn, hval, husable⟩ := seg.pages
    have hnext : e + (seg.val - XLogSegmentOffset seg e) = (e / seg.val + 1) * seg.val := by
      have := div_add_mod' e seg.val
      have := mod_lt e (show 0 < seg.val by omega)
      rw [segmentOffset_eq, succ_mul]
      omega
    obtain ⟨x, hx, -, hend⟩ := recPtr_eq seg ((e / seg.val + 1) * UsableBytesInSegment seg)
    rw [mul_mod_left] at hx
    rw [hnext, recPtrToBytePos_segment, hend, if_pos hx, Nat.mul_div_cancel _ (by omega)]
    exact ⟨rfl, by omega⟩
  · obtain ⟨rfl, rfl, rfl⟩ := Option.some.inj h
    exact ⟨he.symm, hlt⟩

/-- Headers only add to the bytes. -/
theorem le_recPtr (seg : WalSegSize) (bytepos : ℕ) : bytepos ≤ XLogBytePosToRecPtr seg bytepos := by
  obtain ⟨n, -, hval, husable⟩ := seg.pages
  obtain ⟨x, hx, hstart, -⟩ := recPtr_eq seg bytepos
  have hbytes := div_add_mod' bytepos (UsableBytesInSegment seg)
  have hsegs : bytepos / UsableBytesInSegment seg * UsableBytesInSegment seg ≤
      bytepos / UsableBytesInSegment seg * seg.val := Nat.mul_le_mul_left _ (by omega)
  omega

theorem recPtrToBytePos_le (seg : WalSegSize) (ptr : ℕ) : XLogRecPtrToBytePos seg ptr ≤ ptr := by
  obtain ⟨n, -, hval, husable⟩ := seg.pages
  have hbyte := recPtrToBytePos_add (ptr / seg.val) (mod_lt ptr (show 0 < seg.val by omega))
  have hptr := div_add_mod' ptr seg.val
  have hsegs : ptr / seg.val * UsableBytesInSegment seg ≤ ptr / seg.val * seg.val :=
    Nat.mul_le_mul_left _ (by omega)
  rw [hptr] at hbyte
  split_ifs at hbyte <;> omega

/-- **Bytes and the locations behind headers are one to one**, as far as the locations have 64 bits.
A byte is found again from its location, also from the one before a header where a record ends, and
every location behind the header of its page is the location of its byte. -/
theorem recPtr_bijective (seg : WalSegSize) (bytepos ptr : ℕ)
    (hbyte : XLogBytePosToRecPtr seg bytepos < 2 ^ 64) (hptr : ptr < 2 ^ 64) :
    (bytepos < 2 ^ 64 ∧ XLogBytePosToEndRecPtr seg bytepos < 2 ^ 64 ∧
      XLogRecPtrToBytePos seg ptr < 2 ^ 64) ∧
    XLogRecPtrToBytePos seg (XLogBytePosToRecPtr seg bytepos) = bytepos ∧
      XLogRecPtrToBytePos seg (XLogBytePosToEndRecPtr seg bytepos) = bytepos ∧
      ((if XLogSegmentOffset seg ptr < XLOG_BLCKSZ then SizeOfXLogLongPHD
          else SizeOfXLogShortPHD) ≤ ptr % XLOG_BLCKSZ →
        XLogBytePosToRecPtr seg (XLogRecPtrToBytePos seg ptr) = ptr) := by
  obtain ⟨hstart, hend⟩ := recPtrToBytePos_recPtr bytepos
  refine ⟨⟨(le_recPtr seg bytepos).trans_lt hbyte, (endRecPtr_le_recPtr seg bytepos).trans_lt hbyte,
    (recPtrToBytePos_le seg ptr).trans_lt hptr⟩, hstart, hend, fun hhead => ?_⟩
  obtain ⟨n, hn, hval, husable⟩ := seg.pages
  have ho := mod_lt ptr (show 0 < seg.val by omega)
  have hptr := div_add_mod' ptr seg.val
  have hmod : ptr % 8192 = ptr % seg.val % 8192 := by
    rw [hval, Nat.mod_mul_left_mod]
  rw [segmentOffset_eq, XLOG_BLCKSZ, SizeOfXLogLongPHD, SizeOfXLogShortPHD, hmod] at hhead
  have hbyte := recPtrToBytePos_add (ptr / seg.val) ho
  rw [hptr] at hbyte
  generalize hr : ite (ptr % seg.val < 8192) _ _ = r at hbyte
  have hlt : r < UsableBytesInSegment seg := by
    split_ifs at hr hhead <;> omega
  obtain ⟨x, hx, hstart, -⟩ := recPtr_eq seg (XLogRecPtrToBytePos seg ptr)
  rw [hbyte, mul_comm, mul_add_mod, mod_eq_of_lt hlt] at hx
  rw [hstart, hbyte, mul_comm (ptr / _), mul_add_div (by omega), Nat.div_eq_of_lt hlt, add_zero]
  split_ifs at hr hhead <;> omega

/-- The segments of 16 megabytes. -/
def wal16MB : WalSegSize := ⟨2 ^ 24, ⟨24, rfl⟩, by decide, by decide⟩

/-- A byte in the second segment, and the last location that has 64 bits. -/
theorem recPtr_bijective_16MB :
    XLogRecPtrToBytePos wal16MB (XLogBytePosToRecPtr wal16MB 20000000) = 20000000 ∧
      XLogBytePosToRecPtr wal16MB (XLogRecPtrToBytePos wal16MB (2 ^ 64 - 1)) = 2 ^ 64 - 1 := by
  obtain ⟨-, hbyte, -, hptr⟩ :=
    recPtr_bijective wal16MB 20000000 (2 ^ 64 - 1) (by decide) (by decide)
  exact ⟨hbyte, hptr (by decide)⟩

end FdPostgres.Wal
