import FdPostgres.Mmgr
import FdPostgres.Transam.Ids

/-!
# The Time Map of Old Snapshots

`MaintainOldSnapshotTimeMapping` keeps an xmin for each of the last minutes, in a ring of
`OLD_SNAPSHOT_TIME_MAP_ENTRIES` buckets. A call for a later minute than any before is recorded: the
ring is extended or turned up to its minute, and the minutes in between get its xmin as well. Times
are in microseconds; a difference in minutes is put into an `int`, where it may not fit.

* `Window` relates the ring to a function of the time.
* `Reaches`: the states that calls lead to, with the calls that were recorded.
* `timeMap_faithful`: **the ring is a window of the recorded calls**, if none comes too long after
  the one before.
-/

namespace FdPostgres.OldSnapshot

open Function

def USECS_PER_MINUTE : ℤ := 60000000

def AlignTimestampToMinuteBoundary (ts : ℤ) : ℤ :=
  let retval := ts + (USECS_PER_MINUTE - 1)
  retval - retval.tmod USECS_PER_MINUTE

/-- The value that an `int` gets. -/
def toInt (x : ℤ) : ℤ := x.bmod (2 ^ 32)

/-- The fields of the time map; `latest_xmin` and the thresholds are not used for it. -/
structure OldSnapshotControlData where
  next_map_update : ℤ
  head_offset : ℤ
  head_timestamp : ℤ
  count_used : ℤ
  xid_by_minute : ℤ → ℕ

/-- The minute of the last entry. -/
def OldSnapshotControlData.tail (s : OldSnapshotControlData) : ℤ :=
  s.head_timestamp + (s.count_used - 1) * USECS_PER_MINUTE

/-- What `SnapMgrInit` sets; the buckets have any contents. -/
def SnapMgrInit (xid_by_minute : ℤ → ℕ) : OldSnapshotControlData := ⟨0, 0, 0, 0, xid_by_minute⟩

def OLD_SNAPSHOT_TIME_MAP_ENTRIES (old_snapshot_threshold : ℤ) : ℤ := old_snapshot_threshold + 10

section Entries

variable (entries : ℤ) (s : OldSnapshotControlData) (ts : ℤ) (xmin : ℕ)

/-- A round of the loop that stores the new value in one or more buckets. -/
def storeNext : OldSnapshotControlData :=
  if s.count_used = entries then
    { s with
      head_offset := if s.head_offset = entries - 1 then 0 else s.head_offset + 1
      xid_by_minute := update s.xid_by_minute s.head_offset xmin
      head_timestamp := s.head_timestamp + USECS_PER_MINUTE }
  else
    { s with
      count_used := s.count_used + 1
      xid_by_minute := update s.xid_by_minute ((s.head_offset + s.count_used) % entries) xmin }

/-- The first entry is set up. -/
def startOver : OldSnapshotControlData :=
  ⟨s.next_map_update, 0, ts, 1, update s.xid_by_minute 0 xmin⟩

/-- The part of `MaintainOldSnapshotTimeMapping` under `OldSnapshotTimeMapLock`. -/
def updateMap : OldSnapshotControlData :=
  if s.count_used = 0 then startOver s ts xmin
  else if ts < s.head_timestamp then s
  else if ts ≤ s.tail then
    let bucket := (s.head_offset + (ts - s.head_timestamp) / USECS_PER_MINUTE) % entries
    if TransactionIdPrecedes (s.xid_by_minute bucket) xmin then
      { s with xid_by_minute := update s.xid_by_minute bucket xmin }
    else s
  else
    let advance := toInt (toInt ((ts - s.head_timestamp) / USECS_PER_MINUTE) - (s.count_used - 1))
    if advance ≥ entries then startOver s ts xmin
    else (storeNext entries · xmin)^[advance.toNat] s

/-- The xmin of a minute, if the map has one. A distance that does not fit in an `int` may become
negative, and then a bucket before the first one is read. -/
def GetOldSnapshotFromTimeMapping : Except MemoryError (Option ℕ) :=
  if s.count_used > 0 ∧ ts ≥ s.head_timestamp then
    let offset := toInt ((ts - s.head_timestamp) / USECS_PER_MINUTE)
    let offset := if offset > s.count_used - 1 then s.count_used - 1 else offset
    let bucket := (s.head_offset + offset).tmod entries
    if bucket < 0 then .error .undefined else .ok (some (s.xid_by_minute bucket))
  else .ok none

end Entries

variable (old_snapshot_threshold : ℤ)

def MaintainOldSnapshotTimeMapping (s : OldSnapshotControlData) (whenTaken : ℤ) (xmin : ℕ) :
    OldSnapshotControlData :=
  let ts := AlignTimestampToMinuteBoundary whenTaken
  if ts > s.next_map_update then
    let s' := { s with next_map_update := ts }
    if old_snapshot_threshold = 0 ∨ whenTaken < 0 ∨ TransactionIdIsNormal xmin = false then s'
    else updateMap (OLD_SNAPSHOT_TIME_MAP_ENTRIES old_snapshot_threshold) s' ts xmin
  else s

/-- The states that calls lead to, with the minutes and the xmins of those that came to the map, the
last one first. -/
inductive Reaches : OldSnapshotControlData → List (ℤ × ℕ) → Prop
  | init (xid_by_minute : ℤ → ℕ) : Reaches (SnapMgrInit xid_by_minute) []
  | call {s : OldSnapshotControlData} {calls : List (ℤ × ℕ)} (h : Reaches s calls)
      (whenTaken : ℤ) (xmin : ℕ) :
      Reaches (MaintainOldSnapshotTimeMapping old_snapshot_threshold s whenTaken xmin)
        (if AlignTimestampToMinuteBoundary whenTaken > s.next_map_update ∧
            ¬ (old_snapshot_threshold = 0 ∨ whenTaken < 0 ∨ TransactionIdIsNormal xmin = false)
          then (AlignTimestampToMinuteBoundary whenTaken, xmin) :: calls else calls)

/-! ### The window -/

/-- The ring has the values of a function of the time. -/
structure Window (entries : ℤ) (s : OldSnapshotControlData) (f : ℤ → Option ℕ) : Prop where
  offset : 0 ≤ s.head_offset ∧ s.head_offset < entries
  count : 0 < s.count_used ∧ s.count_used ≤ entries
  minute : USECS_PER_MINUTE ∣ s.head_timestamp
  entry : ∀ k, 0 ≤ k → k < s.count_used → f (s.head_timestamp + k * USECS_PER_MINUTE) =
    some (s.xid_by_minute ((s.head_offset + k) % entries))

section Window

variable {entries ts : ℤ} {s : OldSnapshotControlData} {f : ℤ → Option ℕ} {xmin : ℕ}

/-- Two buckets of the ring are the same only at the same distance. -/
theorem emod_entries_ne {o j k : ℤ} (hlt : j < k) (hk : k - j < entries) :
    (o + j) % entries ≠ (o + k) % entries := by
  intro heq
  have hdvd : entries ∣ o + k - (o + j) := Int.ModEq.dvd heq
  have := Int.le_of_dvd (by omega) hdvd
  omega

/-- A round stores behind the last entry; in a full ring, that is the first one, which goes. -/
theorem storeNext_eq (xmin : ℕ) (hoff : 0 ≤ s.head_offset ∧ s.head_offset < entries)
    (hcount : 0 < s.count_used ∧ s.count_used ≤ entries) :
    ∃ d, 0 ≤ d ∧ d ≤ s.count_used ∧ s.count_used < entries + d ∧ storeNext entries s xmin =
      ⟨s.next_map_update, (s.head_offset + d) % entries, s.head_timestamp + d * USECS_PER_MINUTE,
        s.count_used + 1 - d,
        update s.xid_by_minute ((s.head_offset + s.count_used) % entries) xmin⟩ := by
  have hself : s.head_offset % entries = s.head_offset := Int.emod_eq_of_lt hoff.1 hoff.2
  by_cases hfull : s.count_used = entries
  · refine ⟨1, by omega, by omega, by omega, ?_⟩
    rw [storeNext, if_pos hfull, one_mul, add_sub_cancel_right, hfull, Int.add_emod_right, hself]
    congr 1
    split_ifs with hlast
    · rw [hlast, sub_add_cancel, Int.emod_self]
    · exact (Int.emod_eq_of_lt (by omega) (by omega)).symm
  · refine ⟨0, by omega, by omega, by omega, ?_⟩
    rw [storeNext, if_neg hfull, zero_mul, add_zero, add_zero, sub_zero, hself]

/-- **One more minute**, whose value is the new one. -/
theorem Window.next (h : Window entries s f) (hnew : f (s.tail + USECS_PER_MINUTE) = some xmin) :
    Window entries (storeNext entries s xmin) f ∧
      (storeNext entries s xmin).tail = s.tail + USECS_PER_MINUTE ∧
      (storeNext entries s xmin).next_map_update = s.next_map_update := by
  obtain ⟨hoff, hcount, hminute, hentry⟩ := h
  obtain ⟨d, hd, hle, hroom, heq⟩ := storeNext_eq xmin hoff hcount
  have hpos : 0 < entries := by omega
  rw [heq]
  refine ⟨⟨⟨Int.emod_nonneg _ hpos.ne', Int.emod_lt_of_pos _ hpos⟩, by dsimp only; omega,
    dvd_add hminute (dvd_mul_left _ d), fun k hk hlt => ?_⟩, ?_, rfl⟩
  · dsimp only at hlt ⊢
    rw [Int.emod_add_emod, add_assoc, add_assoc, ← add_mul]
    rcases (show d + k ≤ s.count_used by omega).eq_or_lt with hlast | hold
    · rw [hlast, update_self, ← hnew, OldSnapshotControlData.tail]
      congr 1
      ring
    · rw [update_of_ne (emod_entries_ne hold (by omega)), hentry _ (by omega) hold]
  · simp only [OldSnapshotControlData.tail]
    ring

/-- The loop, up to a later minute. -/
theorem Window.advance (h : Window entries s f) (hnew : ∀ ts, s.tail < ts → f ts = some xmin)
    (n : ℕ) : Window entries ((storeNext entries · xmin)^[n] s) f ∧
      ((storeNext entries · xmin)^[n] s).tail = s.tail + n * USECS_PER_MINUTE ∧
      ((storeNext entries · xmin)^[n] s).next_map_update = s.next_map_update := by
  induction n with
  | zero => exact ⟨h, by simp⟩
  | succ n ih =>
    obtain ⟨ihwindow, ihtail, ihnext⟩ := ih
    rw [iterate_succ_apply']
    have hlater : s.tail < s.tail + n * USECS_PER_MINUTE + USECS_PER_MINUTE := by
      simp only [USECS_PER_MINUTE]
      omega
    obtain ⟨hwin, htail, hnext⟩ := ihwindow.next (hnew _ (ihtail ▸ hlater))
    refine ⟨hwin, htail.trans ?_, hnext.trans ihnext⟩
    rw [ihtail]
    push_cast
    ring

theorem toInt_of_lt {x : ℤ} (hx : 0 ≤ x) (hlt : x < 2 ^ 31) : toInt x = x :=
  Int.bmod_eq_of_le (by omega) (by omega)

/-- The distance of a minute from the head. -/
theorem Window.distance (h : Window entries s f) (hts : USECS_PER_MINUTE ∣ ts)
    (hle : s.head_timestamp ≤ ts) (hlt : ts - s.head_timestamp < 2 ^ 31 * USECS_PER_MINUTE) :
    ∃ k, 0 ≤ k ∧ k < 2 ^ 31 ∧ ts = s.head_timestamp + k * USECS_PER_MINUTE ∧
      toInt ((ts - s.head_timestamp) / USECS_PER_MINUTE) = k := by
  obtain ⟨k, hk⟩ := dvd_sub hts h.minute
  have hrange : 0 ≤ k ∧ k < 2 ^ 31 := by
    simp only [USECS_PER_MINUTE] at *
    omega
  refine ⟨k, hrange.1, hrange.2, by rw [mul_comm, ← hk, add_sub_cancel], ?_⟩
  rw [hk, Int.mul_ediv_cancel_left k (by decide), toInt_of_lt hrange.1 hrange.2]

/-- **A lookup finds the value of the function.** -/
theorem Window.lookup (h : Window entries s f) (hts : USECS_PER_MINUTE ∣ ts)
    (hlt : ts - s.head_timestamp < 2 ^ 31 * USECS_PER_MINUTE)
    (hlast : ∀ ts, s.tail < ts → f ts = f s.tail) :
    GetOldSnapshotFromTimeMapping entries s ts =
      .ok (if ts < s.head_timestamp then none else f ts) := by
  have hcount := h.count
  have hoff := h.offset
  rw [GetOldSnapshotFromTimeMapping]
  by_cases hearly : ts < s.head_timestamp
  · rw [if_neg (by omega), if_pos hearly]
  · obtain ⟨k, hk, -, rfl, hdist⟩ := h.distance hts (by omega) hlt
    simp only [hdist]
    rw [if_pos (by omega), Int.tmod_eq_emod_of_nonneg (by split_ifs <;> omega),
      if_neg (not_lt.mpr (Int.emod_nonneg _ (by omega))), if_neg hearly]
    split_ifs with hlater
    · have hpast : s.tail < s.head_timestamp + k * USECS_PER_MINUTE := by
        simp only [OldSnapshotControlData.tail, USECS_PER_MINUTE]
        omega
      rw [← h.entry _ (by omega) (by omega), hlast _ hpast]
      rfl
    · rw [h.entry k hk (by omega)]

end Window

/-! ### The recorded calls -/

/-- The xmin of the first call at a time or later, or of the last call. -/
def xminAt : List (ℤ × ℕ) → ℤ → Option ℕ
  | [], _ => none
  | c :: older, ts => if ∃ d ∈ older, ts ≤ d.1 then xminAt older ts else some c.2

/-- What holds between calls: none is later than the next update, and the map is empty, or it ends
with the last call. -/
def Faithful (entries : ℤ) (s : OldSnapshotControlData) (calls : List (ℤ × ℕ)) : Prop :=
  (∀ d ∈ calls, d.1 ≤ s.next_map_update) ∧ match calls with
    | [] => s.head_offset = 0 ∧ s.count_used = 0
    | c :: older => c.1 = s.tail ∧ (∀ d ∈ older, d.1 < c.1) ∧ Window entries s (xminAt (c :: older))

variable {old_snapshot_threshold entries ts ts' : ℤ} {s : OldSnapshotControlData} {x y xmin : ℕ}
  {c : ℤ × ℕ} {calls : List (ℤ × ℕ)}

theorem mem_of_xminAt (h : xminAt calls ts = some x) : x ∈ calls.map Prod.snd := by
  induction calls with
  | nil => cases h
  | cons c older ih =>
    rw [xminAt] at h
    split_ifs at h
    · exact List.mem_cons_of_mem _ (ih h)
    · exact List.mem_cons.mpr (.inl (Option.some.inj h).symm)

/-- Later times have later xmins. -/
theorem xminAt_mono {r : ℕ → ℕ → Prop} (hrefl : ∀ x, r x x)
    (hcalls : (calls.map Prod.snd).Pairwise fun x y => r y x) (hle : ts ≤ ts')
    (h : xminAt calls ts = some x) (h' : xminAt calls ts' = some y) : r x y := by
  induction calls with
  | nil => cases h
  | cons c older ih =>
    rw [List.map_cons, List.pairwise_cons] at hcalls
    rw [xminAt] at h h'
    split_ifs at h' with hlater
    · obtain ⟨d, hd, hle'⟩ := hlater
      rw [if_pos ⟨d, hd, hle.trans hle'⟩] at h
      exact ih hcalls.2 h h'
    · obtain rfl := Option.some.inj h'
      split_ifs at h
      · exact hcalls.1 x (mem_of_xminAt h)
      · exact Option.some.inj h ▸ hrefl _

/-- A call later than those before is the first one at its minute. -/
theorem xminAt_cons_of_lt (h : ∀ d ∈ calls, d.1 < ts) : xminAt (c :: calls) ts = some c.2 :=
  if_neg fun ⟨d, hd, hle⟩ => absurd hle (not_le.mpr (h d hd))

theorem Faithful.setNext (h : Faithful entries s calls) (hts : s.next_map_update < ts) :
    Faithful entries { s with next_map_update := ts } calls := by
  refine ⟨fun d hd => (h.1 d hd).trans hts.le, ?_⟩
  cases calls with
  | nil => exact h.2
  | cons c older =>
    obtain ⟨-, htail, holder, hwin⟩ := h
    exact ⟨htail, holder, hwin.1, hwin.2, hwin.3, hwin.4⟩

/-- **A call is recorded.** -/
theorem Faithful.updateMap (h : Faithful entries s calls)
    (hentries : 0 < entries ∧ entries < 2 ^ 31) (hts : USECS_PER_MINUTE ∣ ts)
    (hnext : ts ≤ s.next_map_update) (hlater : ∀ d ∈ calls, d.1 < ts)
    (hjump : ∀ c ∈ calls.head?, ts - c.1 < (2 ^ 31 - entries) * USECS_PER_MINUTE) :
    Faithful entries (updateMap entries s ts xmin) ((ts, xmin) :: calls) := by
  have hpast : ∀ d ∈ (ts, xmin) :: calls, d.1 ≤ s.next_map_update :=
    List.forall_mem_cons.mpr ⟨hnext, h.1⟩
  have hover : Faithful entries (startOver s ts xmin) ((ts, xmin) :: calls) := by
    refine ⟨hpast, by simp [OldSnapshotControlData.tail, startOver], hlater, ⟨le_rfl, hentries.1⟩,
      ⟨one_pos, hentries.1⟩, hts, fun k hk hlt => ?_⟩
    obtain rfl : k = 0 := by
      change k < 1 at hlt
      omega
    simp [startOver, xminAt_cons_of_lt hlater]
  cases calls with
  | nil =>
    rw [OldSnapshot.updateMap, if_pos h.2.2]
    exact hover
  | cons c older =>
    obtain ⟨-, htail, holder, hwin⟩ := h
    have hcount := hwin.count
    have hlt : s.tail < ts := htail ▸ hlater c List.mem_cons_self
    have hold : Window entries s (xminAt ((ts, xmin) :: c :: older)) := by
      refine ⟨hwin.offset, hcount, hwin.minute, fun k hk hlt => ?_⟩
      rw [← hwin.entry k hk hlt, xminAt, if_pos]
      refine ⟨c, List.mem_cons_self, ?_⟩
      rw [htail, OldSnapshotControlData.tail, USECS_PER_MINUTE]
      omega
    have hnew : ∀ ts', s.tail < ts' → xminAt ((ts, xmin) :: c :: older) ts' = some xmin :=
      fun ts' hlt => xminAt_cons_of_lt (List.forall_mem_cons.mpr
        ⟨htail ▸ hlt, fun d hd => (holder d hd).trans (htail ▸ hlt)⟩)
    have hrange : s.head_timestamp ≤ ts ∧
        ts - s.head_timestamp < 2 ^ 31 * USECS_PER_MINUTE := by
      have hjump := hjump c rfl
      simp only [htail, OldSnapshotControlData.tail, USECS_PER_MINUTE] at *
      omega
    obtain ⟨k, hk, hk', rfl, hdist⟩ := hwin.distance hts hrange.1 hrange.2
    have hbehind : s.count_used - 1 < k := by
      simp only [OldSnapshotControlData.tail, USECS_PER_MINUTE] at hlt
      omega
    simp only [OldSnapshot.updateMap, if_neg hcount.1.ne', if_neg (not_lt.mpr hrange.1),
      if_neg (not_le.mpr hlt), hdist]
    rw [toInt_of_lt (by omega) (by omega)]
    split_ifs with hfar
    · exact hover
    · obtain ⟨hwin', htail', hnext'⟩ := hold.advance hnew (k - (s.count_used - 1)).toNat
      refine ⟨hnext' ▸ hpast, ?_, hlater, hwin'⟩
      rw [htail', Int.toNat_of_nonneg (by omega), OldSnapshotControlData.tail]
      ring

section Threshold

variable (hthreshold : 0 ≤ old_snapshot_threshold ∧ old_snapshot_threshold ≤ 86400)
  (hentries : entries = OLD_SNAPSHOT_TIME_MAP_ENTRIES old_snapshot_threshold)
  (h : Reaches old_snapshot_threshold s calls)
  (hjumps : calls.IsChain fun c d => c.1 - d.1 < (2 ^ 31 - entries) * USECS_PER_MINUTE)

include hthreshold hentries h hjumps

/-- **Calls keep the map faithful.** -/
theorem Reaches.faithful : Faithful entries s calls := by
  induction h with
  | init => exact ⟨nofun, rfl, rfl⟩
  | @call s calls h whenTaken xmin ih =>
    rw [MaintainOldSnapshotTimeMapping]
    by_cases hlater : AlignTimestampToMinuteBoundary whenTaken > s.next_map_update
    · by_cases hskip : old_snapshot_threshold = 0 ∨ whenTaken < 0 ∨
          TransactionIdIsNormal xmin = false
      · simp only [hlater, hskip] at hjumps ⊢
        exact (ih hjumps).setNext hlater
      · simp only [hlater, hskip, not_false_eq_true, and_true, if_true] at hjumps ⊢
        rw [List.isChain_cons] at hjumps
        have hold := ih hjumps.2
        rw [← hentries]
        refine (hold.setNext hlater).updateMap ?_ Int.dvd_self_sub_tmod le_rfl
          (fun d hd => (hold.1 d hd).trans_lt hlater) hjumps.1
        rw [hentries, OLD_SNAPSHOT_TIME_MAP_ENTRIES]
        omega
    · simp only [hlater] at hjumps ⊢
      exact ih hjumps

/-- **The time map is a window of the recorded calls.** The offset and the count are in range, and
the map ends with the minute of the last call. A lookup finds for a minute of the map the xmin of
the first call in it or later, the last xmin for a later minute and nothing for an earlier one. The
xmins in the map are ordered as those of the calls. -/
theorem timeMap_faithful :
    (0 ≤ s.head_offset ∧ s.head_offset < entries) ∧ (0 ≤ s.count_used ∧ s.count_used ≤ entries) ∧
    (s.count_used = 0 ↔ calls = []) ∧ (∀ c ∈ calls.head?, c.1 = s.tail) ∧
    (∀ ts, USECS_PER_MINUTE ∣ ts → ts - s.head_timestamp < 2 ^ 31 * USECS_PER_MINUTE →
      GetOldSnapshotFromTimeMapping entries s ts =
        .ok (if s.count_used = 0 ∨ ts < s.head_timestamp then none else xminAt calls ts)) ∧
    ∀ r : ℕ → ℕ → Prop, (∀ x, r x x) → (calls.map Prod.snd).Pairwise (fun x y => r y x) →
      ∀ j k, 0 ≤ j → j ≤ k → k < s.count_used →
        r (s.xid_by_minute ((s.head_offset + j) % entries))
          (s.xid_by_minute ((s.head_offset + k) % entries)) := by
  have hfaith := h.faithful hthreshold hentries hjumps
  rw [OLD_SNAPSHOT_TIME_MAP_ENTRIES] at hentries
  cases calls with
  | nil =>
    obtain ⟨-, hoff, hcount⟩ := hfaith
    refine ⟨by omega, by omega, iff_of_true hcount rfl, nofun, fun ts _ _ => ?_,
      fun _ _ _ j k hj hjk hk => by omega⟩
    rw [GetOldSnapshotFromTimeMapping, if_neg (by omega), if_pos (.inl hcount)]
  | cons c older =>
    obtain ⟨-, htail, holder, hwin⟩ := hfaith
    have hcount := hwin.count
    refine ⟨hwin.offset, by omega, iff_of_false hcount.1.ne' (List.cons_ne_nil c older), ?_,
      fun ts hts hlt => ?_, fun r hrefl hcalls j k hj hjk hk => ?_⟩
    · rintro _ ⟨⟩
      exact htail
    · rw [hwin.lookup hts hlt fun ts hlt => ?_]
      · simp only [hcount.1.ne', false_or]
      · rw [← htail] at hlt ⊢
        rw [xminAt_cons_of_lt holder, xminAt_cons_of_lt fun d hd => (holder d hd).trans hlt]
    · refine xminAt_mono hrefl hcalls ?_ (hwin.entry j hj (by omega))
        (hwin.entry k (by omega) hk)
      simp only [USECS_PER_MINUTE]
      omega

end Threshold

/-- Calls at the minutes 1 and 3, and a lookup between. -/
theorem timeMap_faithful_two : ∃ s, Reaches 1 s [(180000000, 200), (60000000, 100)] ∧
    GetOldSnapshotFromTimeMapping 11 s 120000000 = .ok (some 200) :=
  have h := .call (.call (.init fun _ => 0) 60000000 100) 180000000 200
  ⟨_, h, ((timeMap_faithful (by decide) rfl h (by decide)).2.2.2.2.1 120000000 (by decide)
    (by decide)).trans (by decide)⟩

/-- The distance of a call 2^32 minutes later is 0 as an `int`: the map is left as it is. -/
theorem timeMap_truncated : ∃ s,
    Reaches 1 s [((2 ^ 32 + 1) * USECS_PER_MINUTE, 200), (USECS_PER_MINUTE, 100)] ∧
      s.tail = USECS_PER_MINUTE ∧
      GetOldSnapshotFromTimeMapping 11 s ((2 ^ 32 + 1) * USECS_PER_MINUTE) = .ok (some 100) :=
  ⟨_, .call (.call (.init fun _ => 0) USECS_PER_MINUTE 100) ((2 ^ 32 + 1) * USECS_PER_MINUTE) 200,
    by decide, by decide⟩

end FdPostgres.OldSnapshot
