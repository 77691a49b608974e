import FdPostgres.Multixact.Creations
import FdPostgres.Multixact.Pages

/-!
# Member Space is Never Overrun

The members of the multixacts that are kept lie between the slot of the oldest position and the
next offset. The stop limit is a segment before the segment of an oldest position of the past, a
round later, so the next offset never comes around to the segments of the multixacts that are
kept, and the segments that are truncated are not among them.

* `SpaceInv`: the history, the limits, and the pages of the members that are kept.
* `SpaceSafe`: new members are outside the range of the multixacts that are kept, on pages that
  are there; truncation ends and deletes no page of a multixact from the new oldest one on.
* `member_space_safe`: so it is in every state of every run in which the offset that is looked up
  for the oldest multixact is the right one.
-/

namespace FdPostgres

open WrapCounter CircularBlocks List Nat

/-! ### The property -/

/-- The offset found for the multixact of a position is the right one. -/
def OffsetFound (s : MxSystem) (i : ℕ) : Prop :=
  ∀ o, oldestOffsetOf s.mx (s.idAt i) = some o → o = s.offsetAt i

instance (s : MxSystem) (i : ℕ) : Decidable (OffsetFound s i) :=
  decidable_of_iff (∀ o ∈ oldestOffsetOf s.mx (s.idAt i), o = s.offsetAt i) Iff.rfl

/-- What a step may be: members of less than a given number, positions that do not go back, and the
right offset found for the oldest multixact. -/
def SpaceStep (limit : ℕ) (s : MxSystem) : MxEvent → Prop
  | .allocate members => members ≠ [] ∧ members.length < limit
  | .record _ => True
  | .setIdLimit i => s.oldest ≤ i ∧ i ≤ s.log.length ∧ OffsetFound s i
  | .setOffsetLimit => OffsetFound s s.oldest
  | .truncate i _ =>
      s.oldest ≤ i ∧ i ≤ s.log.length ∧ OffsetFound s s.oldest ∧ OffsetFound s i

instance (limit : ℕ) (s : MxSystem) (e : MxEvent) : Decidable (SpaceStep limit s e) :=
  match e with
  | .allocate _ | .setIdLimit _ | .truncate _ _ => inferInstanceAs (Decidable (_ ∧ _))
  | .record _ => inferInstanceAs (Decidable True)
  | .setOffsetLimit => inferInstanceAs (Decidable (OffsetFound s s.oldest))

/-- A page of the members area that is entered at its first slot by a range of slots. -/
def EnteredBy (offset slots p : ℕ) : Prop :=
  ∃ x < slots, FirstOfPage (offset + x) ∧ slotPage (offset + x) = p

/-- **Member space is neither overrun nor truncated while it is needed.** A page that was deleted
is there again only after `ExtendMultiXactMember` zeroed it. -/
structure SpaceSafe (env : MultiXactEnv) (s : MxSystem) : Prop where
  /-- New members are outside the range of the multixacts from the oldest one on. -/
  outside : ∀ nmembers, 0 < nmembers → nmembers < membersPerSegment → ∀ a mx',
    GetNewMultiXactId env s.mx nmembers = (.ok a, mx') → ∀ c ∈ s.log.drop s.oldest,
    ∀ x < nmembers, ∀ y < c.alloc.nmembers,
      (a.offset + x) % 2 ^ 32 ≠ (c.alloc.offset + y) % 2 ^ 32
  /-- The pages of new members are there. -/
  present : ∀ nmembers, 0 < nmembers → nmembers < membersPerSegment → ∀ a mx',
    GetNewMultiXactId env s.mx nmembers = (.ok a, mx') → ∀ x < nmembers,
      mx'.members.pages (MXOffsetToMemberPage ((a.offset + x) % 2 ^ 32)) ≠ none
  /-- The pages that new members enter are zeroed. -/
  zeroed : ∀ nmembers, ∀ a mx', GetNewMultiXactId env s.mx nmembers = (.ok a, mx') →
    ∀ p, EnteredBy s.mx.state.nextOffset a.slots p → mx'.members.pages p = some fun _ => 0
  /-- Truncation ends, and deletes no page of a multixact from the new oldest one on. -/
  truncation : ∀ i dir, s.oldest ≤ i → i ≤ s.log.length → OffsetFound s s.oldest →
    OffsetFound s i → ∃ mx', TruncateMultiXact s.mx (s.idAt i) dir = some mx' ∧
      ∀ c ∈ s.log.drop i, ∀ y < c.alloc.nmembers,
        mx'.members.pages (MXOffsetToMemberPage ((c.alloc.offset + y) % 2 ^ 32)) =
          s.mx.members.pages (MXOffsetToMemberPage ((c.alloc.offset + y) % 2 ^ 32))

/-- The state before the first step: no multixact is kept. The next offset may be any, and the limit
may have been set for any offset from which the next one is not past it. -/
structure SpaceStart (s : MxSystem) : Prop where
  log : s.log = []
  oldest : s.oldest = 0
  nextMXact : 0 < s.mx.state.nextMXact ∧ s.mx.state.nextMXact < 2 ^ 32
  nextOffset : s.mx.state.nextOffset < 2 ^ 32
  oldestMulti : s.mx.state.oldestMultiXactId = s.mx.state.nextMXact
  known : s.mx.state.oldestOffsetKnown = true
  limit : ∃ o < 2 ^ 32, s.mx.state.offsetStopLimit = offsetStopLimitFor o ∧
    Word32.sub s.mx.state.nextOffset o + o % membersPerSegment + membersPerSegment < 2 ^ 32
  page : ¬ FirstOfPage s.mx.state.nextOffset →
    s.mx.members.pages (slotPage s.mx.state.nextOffset) ≠ none

/-- The offset found depends on the history, the counters and the offsets area. -/
theorem OffsetFound.congr {s s' : MxSystem} {i : ℕ} (h : OffsetFound s i) (hlog : s'.log = s.log)
    (hnext : s'.mx.state.nextMXact = s.mx.state.nextMXact)
    (hoff : s'.mx.state.nextOffset = s.mx.state.nextOffset)
    (hoffs : s'.mx.offsets = s.mx.offsets) : OffsetFound s' i := by
  intro o ho
  rw [MxSystem.idAt_congr hlog hnext, oldestOffsetOf, find_multixact_start, hnext, hoff,
    hoffs] at ho
  rw [MxSystem.offsetAt, hlog, hoff]
  exact h o ho

/-! ### The invariant -/

/-- The history and the space of its members. -/
structure SpaceInv (r w : ℕ) (s : MxSystem) : Prop where
  ledger : Ledger r w s.allocs
  counters : Counters r w s.mx.state s.allocs
  base : 2 ^ 32 ≤ w
  nonempty : ∀ a ∈ s.allocs, 0 < a.nmembers
  oldest_le : s.oldest ≤ s.log.length
  oldestMulti : s.mx.state.oldestMultiXactId = nth (r + s.oldest)
  known : s.mx.state.oldestOffsetKnown = true
  /-- The limit was set for a slot that is not after the oldest position. -/
  limit : ∃ L ≤ slotAt w s.allocs s.oldest, s.mx.state.offsetStopLimit = stopSlot L % 2 ^ 32 ∧
    slotAt w s.allocs s.log.length < stopSlot L
  /-- The pages of the members that are kept are there. -/
  pages : ∀ X, slotAt w s.allocs s.oldest ≤ X → X < slotAt w s.allocs s.log.length →
    s.mx.members.pages (slotPage X) ≠ none
  /-- The page of the next slot is there, unless it is to be entered. -/
  next : ¬ FirstOfPage (slotAt w s.allocs s.log.length) →
    s.mx.members.pages (slotPage (slotAt w s.allocs s.log.length)) ≠ none

theorem stopSlot_mono {X Y : ℕ} (h : X ≤ Y) : stopSlot X ≤ stopSlot Y :=
  Nat.sub_le_sub_right (Nat.add_le_add_right (segmentStart_mono h) _) _

section Facts

variable {r w : ℕ} {s : MxSystem} {i : ℕ}

/-- The next offset is before the limit of the oldest position. -/
theorem SpaceInv.lt_stopSlot (h : SpaceInv r w s) (hi : s.oldest ≤ i) :
    slotAt w s.allocs s.log.length < stopSlot (slotAt w s.allocs i) := by
  obtain ⟨L, hL, -, hlt⟩ := h.limit
  exact lt_of_lt_of_le hlt (stopSlot_mono (le_trans hL (slotAt_mono hi)))

/-- The offset of a position lies in the segment of its slot. -/
theorem SpaceInv.offsetAt (h : SpaceInv r w s) (hi : i ≤ s.log.length) :
    ∃ L, s.offsetAt i = L % 2 ^ 32 ∧ slotSegment L = slotSegment (slotAt w s.allocs i) ∧
      stopSlot L = stopSlot (slotAt w s.allocs i) := by
  rcases h.ledger.offsetAt h.counters hi with heq | ⟨hzero, hone⟩
  · exact ⟨_, heq, rfl, rfl⟩
  · refine ⟨slotAt w s.allocs i + 1, by omega, ?_, ?_⟩
    · have hdiv : (slotAt w s.allocs i + 1) / 2 ^ 32 = slotAt w s.allocs i / 2 ^ 32 := by omega
      have hmod : (slotAt w s.allocs i + 1) % 2 ^ 32 = 1 := by omega
      rw [slotSegment, slotSegment, index, index, hdiv, hmod, hzero, membersPerSegment_eq]
    · simp only [stopSlot, segmentStart, membersPerSegment_eq]
      omega

/-- **The segments in use are within a round**: a slot before the limit of a position is less than
a round of segments after it. -/
theorem slotSegment_lt_round {X Y : ℕ} (hX : 2 ^ 32 ≤ X) (h : X < stopSlot Y) :
    slotSegment X < slotSegment Y + 82041 := by
  obtain ⟨Z, rfl⟩ : ∃ Z, X = Z + 2 ^ 32 := ⟨X - 2 ^ 32, by omega⟩
  rw [slotSegment_add]
  refine Nat.add_lt_add_right (slotSegment_lt ?_) _
  rw [stopSlot] at h
  omega

/-- The history has fewer positions in use than there are ids. -/
theorem SpaceInv.positions_lt (h : SpaceInv r w s) : s.log.length - s.oldest < 2 ^ 32 - 1 := by
  have hlen := h.ledger.add_le_slotAt h.nonempty h.oldest_le
    (le_of_eq s.length_allocs.symm)
  have hlt := h.lt_stopSlot le_rfl
  have hstop := stopSlot_le (slotAt w s.allocs s.oldest)
  omega

/-- Slots of a creation at or after a position. -/
theorem SpaceInv.slot_of_mem (h : SpaceInv r w s) {c : Creation} (hc : c ∈ s.log.drop i) {y : ℕ}
    (hy : y < c.alloc.nmembers) :
    ∃ X, (c.alloc.offset + y) % 2 ^ 32 = X % 2 ^ 32 ∧ slotAt w s.allocs i ≤ X ∧
      X < slotAt w s.allocs s.log.length := by
  obtain ⟨t, ht⟩ := getElem?_of_mem hc
  rw [getElem?_drop] at ht
  have hget := MxSystem.allocs_get ht
  obtain ⟨v, hv, hoff, hend⟩ := (h.ledger.get hget).2.exists_start
  have hlt : i + t < s.log.length := (List.getElem?_eq_some_iff.mp ht).1
  have hlow : slotAt w s.allocs i ≤ slotAt w s.allocs (i + t) := slotAt_mono (le_add_right _ _)
  have hhigh : slotAt w s.allocs (i + t + 1) ≤ slotAt w s.allocs s.log.length := slotAt_mono hlt
  rw [slotAt_succ hget] at hhigh
  refine ⟨v + y, ?_, by omega, by omega⟩
  rw [hoff, mod_add_mod]

end Facts

/-! ### Allocation -/

section Allocate

variable {env : MultiXactEnv} {r w : ℕ} {s : MxSystem} {nmembers : ℕ} {a : NewMultiXact}
  {mx' mx : Multixact}

/-- What an allocation does to the state and to the members area. -/
theorem reserve_members {result : ℕ} (h : reserve mx result nmembers = (.ok a, mx')) :
    pastOffsetStopLimit mx.state nmembers = false ∧
      mx'.members = ExtendMultiXactMember mx.members mx.state.nextOffset
        (slotsTaken mx.state.nextOffset nmembers) := by
  simp only [reserve] at h
  split at h
  · exact absurd (Prod.mk.inj h).1 (by simp)
  case isFalse hpast =>
    refine ⟨by simpa using hpast, ?_⟩
    rw [← (Prod.mk.inj h).2]

/-- Slots of a small number of members. -/
theorem slotsTaken_le (nextOffset nmembers : ℕ) :
    nmembers ≤ slotsTaken nextOffset nmembers ∧
      slotsTaken nextOffset nmembers ≤ nmembers + 1 := by
  rw [slotsTaken]
  split <;> omega

/-- **An allocation that is not refused ends before every limit**, and extends the members area
from the next slot on. -/
theorem SpaceInv.reserveNext_ok (h : SpaceInv r w s) (hsmall : nmembers < 2 ^ 31)
    (hresv : reserveNext s.mx nmembers = (.ok a, mx')) :
    a.offset = startOffset (slotAt w s.allocs s.log.length % 2 ^ 32) ∧
    a.slots = slotsTaken (slotAt w s.allocs s.log.length % 2 ^ 32) nmembers ∧
    (∀ L ≤ slotAt w s.allocs s.log.length, s.mx.state.offsetStopLimit = stopSlot L % 2 ^ 32 →
      slotAt w s.allocs s.log.length < stopSlot L →
      slotAt w s.allocs s.log.length + a.slots < stopSlot L) ∧
    mx'.members = ExtendMultiXactMember s.mx.members
      (slotAt w s.allocs s.log.length % 2 ^ 32) a.slots := by
  have hnext : (fixNextMXact s.mx.state).nextOffset = slotAt w s.allocs s.log.length % 2 ^ 32 := by
    rw [fixNextMXact_eq, ← MxSystem.length_allocs, slotAt_length]
    exact h.counters.nextOffset
  obtain ⟨rfl, -⟩ := reserve_ok hresv
  obtain ⟨hpast, hmems⟩ := reserve_members hresv
  simp only [hnext] at hmems hpast ⊢
  refine ⟨trivial, trivial, fun L hL hstop hlt => ?_, hmems⟩
  have hle := slotsTaken_le (slotAt w s.allocs s.log.length % 2 ^ 32) nmembers
  simp only [pastOffsetStopLimit, hnext] at hpast
  rw [fixNextMXact_eq] at hpast
  simp only [h.known, hstop, Bool.true_and] at hpast
  exact wouldWrap_eq_false hlt (by omega) hpast

/-- An allocation that is not refused keeps the invariant. -/
theorem SpaceInv.allocate_ok (h : SpaceInv r w s) (members : List MultiXactMember)
    (hne : members ≠ []) (hsmall : members.length < 2 ^ 31)
    (hresv : reserveNext s.mx members.length = (.ok a, mx')) :
    SpaceInv r w { s with
      mx := mx'
      log := s.log ++ [⟨⟨a.multi, a.offset, members.length, a.slots⟩, members, false⟩] } := by
  obtain ⟨hoff, hslots, hroom, hmems⟩ := h.reserveNext_ok hsmall hresv
  have hpos : 0 < members.length := length_pos_iff.mpr hne
  have hstate := (reserve_ok hresv).2
  rw [fixNextMXact_eq] at hstate
  have hfix : Counters r w ({ s.mx with state := fixNextMXact s.mx.state } : Multixact).state
      s.allocs := h.counters.fix.1
  have hnew := hfix.reserve h.ledger h.counters.fix.2 hresv
  have halloc : MxSystem.allocs { s with
      mx := mx'
      log := s.log ++ [⟨⟨a.multi, a.offset, members.length, a.slots⟩, members, false⟩] } =
      s.allocs ++ [⟨a.multi, a.offset, members.length, a.slots⟩] := map_append
  have hat : ∀ {i}, i ≤ s.log.length →
      slotAt w (s.allocs ++ [⟨a.multi, a.offset, members.length, a.slots⟩]) i =
        slotAt w s.allocs i := fun hi =>
    slotAt_append (le_trans hi (le_of_eq s.length_allocs.symm)) _
  have hend : slotAt w (s.allocs ++ [⟨a.multi, a.offset, members.length, a.slots⟩])
      (s.log.length + 1) = slotAt w s.allocs s.log.length + a.slots := by
    rw [← s.length_allocs]
    exact slotAt_concat
  have hslotpos : 0 < a.slots := by
    have hle := (slotsTaken_le (slotAt w s.allocs s.log.length % 2 ^ 32) members.length).1
    omega
  have hrange : ∀ X, slotAt w s.allocs s.log.length ≤ X →
      X < slotAt w s.allocs s.log.length + a.slots → mx'.members.pages (slotPage X) ≠ none := by
    intro X hle hlt
    rw [hmems]
    exact extendMember_range h.next hle hlt
  constructor
  case ledger => rw [halloc]; exact hnew.1
  case counters => rw [halloc]; exact hnew.2
  case base => exact h.base
  case nonempty =>
    intro b hb
    rw [halloc, mem_append, mem_singleton] at hb
    rcases hb with hb | rfl
    · exact h.nonempty b hb
    · exact hpos
  case oldest_le =>
    rw [length_append]
    exact le_trans h.oldest_le (le_add_right _ _)
  case oldestMulti => rw [hstate]; exact h.oldestMulti
  case known => rw [hstate]; exact h.known
  case limit =>
    obtain ⟨L, hL, hstop, hlt⟩ := h.limit
    have hLend := le_trans hL (slotAt_mono h.oldest_le)
    rw [halloc, length_append, length_singleton, hend, hstate, hat h.oldest_le]
    exact ⟨L, hL, hstop, hroom L hLend hstop hlt⟩
  case pages =>
    rw [halloc, length_append, length_singleton, hend, hat h.oldest_le]
    intro X hle hlt
    by_cases hold : X < slotAt w s.allocs s.log.length
    · rw [hmems]
      exact extendMember_ne_none (h.pages X hle hold)
    · exact hrange X (by omega) hlt
  case next =>
    rw [halloc, length_append, length_singleton, hend]
    intro hfirst
    -- the slot before the next one is on the same page
    have hprev := hrange (slotAt w s.allocs s.log.length + a.slots - 1) (by omega) (by omega)
    generalize slotAt w s.allocs s.log.length + a.slots = E at hfirst hprev hslotpos
    have hsame : slotPage (E - 1) = slotPage E := by
      rw [FirstOfPage, membersPerPage_eq] at hfirst
      have hmod : (E - 1) % 2 ^ 32 = E % 2 ^ 32 - 1 := by omega
      simp only [slotPage, MXOffsetToMemberPage, membersPerPage_eq, hmod]
      omega
    rw [← hsame]
    exact hprev

end Allocate

/-! ### Other steps -/

section Steps

variable {env : MultiXactEnv} {r w : ℕ} {s s' : MxSystem} {i : ℕ}

/-- The oldest multixact and the limit of the offsets are left. -/
structure LimitsKept (st st' : MultiXactStateData) : Prop where
  multi : st'.oldestMultiXactId = st.oldestMultiXactId
  known : st'.oldestOffsetKnown = st.oldestOffsetKnown
  stop : st'.offsetStopLimit = st.offsetStopLimit

variable (h : SpaceInv r w s)

include h

/-- What the invariant depends on. -/
theorem SpaceInv.frame (halloc : s'.allocs = s.allocs)
    (hold : s'.oldest = s.oldest) (hctrs : Counters r w s'.mx.state s.allocs)
    (hlims : LimitsKept s.mx.state s'.mx.state)
    (hpages : ∀ p, s.mx.members.pages p ≠ none → s'.mx.members.pages p ≠ none) :
    SpaceInv r w s' := by
  have hlen : s'.log.length = s.log.length := by
    rw [← MxSystem.length_allocs, ← MxSystem.length_allocs, halloc]
  constructor
  case ledger => rw [halloc]; exact h.ledger
  case counters => rw [halloc]; exact hctrs
  case base => exact h.base
  case nonempty => rw [halloc]; exact h.nonempty
  case oldest_le => rw [hold, hlen]; exact h.oldest_le
  case oldestMulti => rw [hlims.multi, hold]; exact h.oldestMulti
  case known => rw [hlims.known]; exact h.known
  case limit => rw [hold, hlims.stop, halloc, hlen]; exact h.limit
  case pages =>
    rw [hold, halloc, hlen]
    exact fun X hle hlt => hpages _ (h.pages X hle hlt)
  case next =>
    rw [halloc, hlen]
    exact fun hfirst => hpages _ (h.next hfirst)

variable {mx' : Multixact}

/-- The counter may be moved past zero. -/
theorem SpaceInv.fixed (hstate : mx'.state = fixNextMXact s.mx.state)
    (hmems : mx'.members = s.mx.members) : SpaceInv r w { s with mx := mx' } := by
  have hctrs : Counters r w mx'.state s.allocs := by
    rw [hstate]
    exact h.counters.fix.1
  have hlims : LimitsKept s.mx.state mx'.state := by
    rw [hstate, fixNextMXact_eq]
    exact ⟨rfl, rfl, rfl⟩
  refine h.frame rfl rfl hctrs hlims (fun p hp => ?_)
  rw [hmems]
  exact hp

/-- A refused allocation moves the counter past zero, if anything. -/
theorem SpaceInv.allocate_error {nmembers : ℕ} {e : MultiXactError}
    (herr : GetNewMultiXactId env s.mx nmembers = (.error e, mx')) :
    SpaceInv r w { s with mx := mx' } := by
  rcases getNew_cases herr with ⟨-, -, rfl | rfl⟩ | hresv
  · exact h
  · exact h.fixed rfl rfl
  · obtain ⟨hstate, hmems⟩ := reserve_error hresv
    exact h.fixed hstate hmems

omit h in
/-- Recording members creates and deletes no page. -/
theorem recordMembers_pages (members : List MultiXactMember) (ctl : Slru) (offset p : ℕ) :
    (recordMembers ctl offset members).2.pages p = none ↔ ctl.pages p = none := by
  induction members generalizing ctl offset with
  | nil => rfl
  | cons m members ih =>
    rw [recordMembers]
    cases hpage : ctl.pages (MXOffsetToMemberPage offset) with
    | none => rfl
    | some page =>
      refine (ih _ _).trans ?_
      by_cases heq : p = MXOffsetToMemberPage offset
      · subst heq
        simp [Slru.setPage, hpage]
      · simp [Slru.setPage, Function.update_of_ne heq]

omit h in
/-- Recording leaves the counters and the limits. -/
theorem recordNewMultiXact_frame {mx : Multixact} {multi offset : ℕ}
    {members : List MultiXactMember} {res : Except MultiXactError Unit}
    (h : RecordNewMultiXact mx multi offset members = (res, mx')) :
    mx'.state = mx.state ∧ ∀ p, mx'.members.pages p = none ↔ mx.members.pages p = none := by
  simp only [RecordNewMultiXact] at h
  split at h
  · rw [← (Prod.mk.inj h).2]
    exact ⟨rfl, fun p => Iff.rfl⟩
  · rw [← (Prod.mk.inj h).2]
    exact ⟨rfl, recordMembers_pages members mx.members offset⟩

/-- Recording keeps the invariant. -/
theorem SpaceInv.record (i : ℕ) : SpaceInv r w (s.record i) := by
  rw [MxSystem.record]
  cases hget : s.log[i]? with
  | none => exact h
  | some c =>
    dsimp only
    cases hrec : RecordNewMultiXact s.mx c.alloc.multi c.alloc.offset c.members with
    | mk res mx' =>
      obtain ⟨hstate, hpages⟩ := recordNewMultiXact_frame hrec
      have hctrs : Counters r w mx'.state s.allocs := by
        rw [hstate]
        exact h.counters
      have hlims : LimitsKept s.mx.state mx'.state := by
        rw [hstate]
        exact ⟨rfl, rfl, rfl⟩
      have hkept : ∀ p, s.mx.members.pages p ≠ none → mx'.members.pages p ≠ none :=
        fun p hp hnone => hp ((hpages p).mp hnone)
      cases res with
      | error e => exact h.frame rfl rfl hctrs hlims hkept
      | ok u =>
        exact h.frame (MxSystem.allocs_recorded hget) rfl hctrs hlims hkept

theorem SpaceInv.idAt_oldest : s.idAt s.oldest = s.mx.state.oldestMultiXactId := by
  rw [h.oldestMulti, h.ledger.idAt h.counters h.oldest_le]

/-- **Setting the limit of the offsets** keeps the invariant, if the right offset is found. -/
theorem SpaceInv.setOffsetLimit (hfound : OffsetFound s s.oldest) :
    SpaceInv r w { s with mx := SetOffsetVacuumLimit s.mx } := by
  rw [SetOffsetVacuumLimit]
  cases hlook : oldestOffsetOf s.mx s.mx.state.oldestMultiXactId with
  | none =>
    rw [if_pos h.known]
    exact h
  | some o =>
    have ho := hfound o (by rw [h.idAt_oldest]; exact hlook)
    obtain ⟨L, hL, -, hstop⟩ := h.offsetAt h.oldest_le
    exact
      { ledger := h.ledger
        counters := ⟨h.counters.nextMXact, h.counters.word, h.counters.nextOffset⟩
        base := h.base
        nonempty := h.nonempty
        oldest_le := h.oldest_le
        oldestMulti := h.oldestMulti
        known := rfl
        limit := by
          refine ⟨_, le_rfl, ?_, h.lt_stopSlot le_rfl⟩
          change offsetStopLimitFor o = stopSlot (slotAt w s.allocs s.oldest) % 2 ^ 32
          rw [ho, hL, offsetStopLimitFor_eq, hstop]
        pages := h.pages
        next := h.next }

section Later

variable (hle : s.oldest ≤ i) (hi : i ≤ s.log.length)

include hle hi

/-- A later oldest position. -/
theorem SpaceInv.setOldest (hctrs : Counters r w mx'.state s.allocs)
    (hmulti : mx'.state.oldestMultiXactId = s.idAt i)
    (hknown : mx'.state.oldestOffsetKnown = s.mx.state.oldestOffsetKnown)
    (hstop : mx'.state.offsetStopLimit = s.mx.state.offsetStopLimit)
    (hpages : ∀ Z, slotAt w s.allocs i ≤ Z → Z ≤ slotAt w s.allocs s.log.length →
      mx'.members.pages (slotPage Z) = s.mx.members.pages (slotPage Z)) :
    SpaceInv r w { s with mx := mx', oldest := i } where
  ledger := h.ledger
  counters := hctrs
  base := h.base
  nonempty := h.nonempty
  oldest_le := hi
  oldestMulti := by rw [hmulti, h.ledger.idAt h.counters hi]
  known := by rw [hknown, h.known]
  limit := by
    obtain ⟨L, hL, heq, hlt⟩ := h.limit
    exact ⟨L, le_trans hL (slotAt_mono hle), by rw [hstop]; exact heq, hlt⟩
  pages X hX hlt := by
    rw [hpages X hX (hlt.le)]
    exact h.pages X (le_trans (slotAt_mono hle) hX) hlt
  next hfirst := by
    change mx'.members.pages (slotPage (slotAt w s.allocs s.log.length)) ≠ none
    rw [hpages _ (slotAt_mono hi) le_rfl]
    exact h.next hfirst

/-- **Setting the limits of the ids** keeps the invariant, if the right offset is found. -/
theorem SpaceInv.setIdLimit (hfound : OffsetFound s i) :
    SpaceInv r w { s with mx := SetMultiXactIdLimit env s.mx (s.idAt i), oldest := i } := by
  rw [SetMultiXactIdLimit]
  refine SpaceInv.setOffsetLimit (s := { s with mx := { s.mx with state := _ }, oldest := i })
    (h.setOldest hle hi ?_ rfl rfl rfl fun Z _ _ => rfl) ?_
  · exact ⟨h.counters.nextMXact, h.counters.word, h.counters.nextOffset⟩
  · exact hfound.congr rfl rfl rfl rfl

/-- **Truncation ends**: nothing is removed, or the old offsets are, and the pages
of the members from the new oldest position on are left. -/
theorem SpaceInv.truncateMultiXact (hold : OffsetFound s s.oldest) (hnew : OffsetFound s i)
    (dir : List ℕ) : ∃ mx', TruncateMultiXact s.mx (s.idAt i) dir = some mx' ∧
      (mx' = s.mx ∨ mx'.state = { s.mx.state with oldestMultiXactId := s.idAt i } ∧
        mx'.offsets = PerformOffsetsTruncation s.mx.offsets (s.idAt i) ∧
        ∀ Z, slotAt w s.allocs i ≤ Z → Z ≤ slotAt w s.allocs s.log.length →
          mx'.members.pages (slotPage Z) = s.mx.members.pages (slotPage Z)) := by
  simp only [TruncateMultiXact]
  split
  · exact ⟨s.mx, rfl, .inl rfl⟩
  · split
    · exact ⟨s.mx, rfl, .inl rfl⟩
    · rw [← h.idAt_oldest]
      cases hlook : oldestOffsetOf s.mx (s.idAt s.oldest) with
      | none => exact ⟨s.mx, rfl, .inl rfl⟩
      | some o =>
        cases hlook' : oldestOffsetOf s.mx (s.idAt i) with
        | none => exact ⟨s.mx, rfl, .inl rfl⟩
        | some o' =>
          obtain ⟨L, hL, hseg, -⟩ := h.offsetAt h.oldest_le
          obtain ⟨L', hL', hseg', -⟩ := h.offsetAt hi
          have hmono : slotSegment (slotAt w s.allocs s.oldest) ≤
              slotSegment (slotAt w s.allocs i) :=
            index_mono (Nat.two_pow_pos 32) (slotAt_mono hle)
          -- every slot in use is less than a round after the oldest one
          have hround : ∀ Z, slotAt w s.allocs s.oldest ≤ Z →
              Z ≤ slotAt w s.allocs s.log.length → slotSegment Z < slotSegment L + 82041 := by
            intro Z hZ hZ'
            rw [hseg]
            exact slotSegment_lt_round (le_trans h.base (le_trans le_slotAt hZ))
              (lt_of_le_of_lt hZ' (h.lt_stopSlot le_rfl))
          have hlast : slotSegment L' < slotSegment L + 82041 := by
            rw [hseg']
            exact hround _ (slotAt_mono hle) (slotAt_mono hi)
          obtain ⟨ctl', heq, hpages⟩ := performMembersTruncation_eq s.mx.members
            (by rw [hseg, hseg']; exact hmono) hlast
          dsimp only
          rw [hold o hlook, hnew o' hlook', hL, hL', heq]
          refine ⟨_, rfl, .inr ⟨rfl, rfl, fun Z hZ hZ' => hpages Z ?_ ?_⟩⟩
          · rw [hseg']
            exact index_mono (Nat.two_pow_pos 32) hZ
          · exact hround Z (le_trans (slotAt_mono hle) hZ) hZ'

/-- A truncation that does nothing leaves the oldest position. -/
theorem SpaceInv.oldest_left :
    (if s.mx.state.oldestMultiXactId = s.idAt i then i else s.oldest) = s.oldest := by
  split
  case isTrue hid =>
    by_contra hne
    rw [h.oldestMulti, h.ledger.idAt h.counters hi] at hid
    have hlt := h.positions_lt
    exact nth_ne_nth (by omega) (by omega) hid
  case isFalse => rfl

/-- Truncation keeps the invariant. -/
theorem SpaceInv.truncate
    (hold : OffsetFound s s.oldest) (hnew : OffsetFound s i) (dir : List ℕ) :
    SpaceInv r w (s.truncate i dir) := by
  obtain ⟨mx', heq, hcase⟩ := h.truncateMultiXact hle hi hold hnew dir
  rw [MxSystem.truncate, heq]
  dsimp only
  rcases hcase with rfl | ⟨hstate, -, hpages⟩
  · rw [h.oldest_left hle hi]
    exact h
  · rw [if_pos (congrArg MultiXactStateData.oldestMultiXactId hstate)]
    refine h.setOldest hle hi ?_ ?_ ?_ ?_ hpages
    · rw [hstate]
      exact ⟨h.counters.nextMXact, h.counters.word, h.counters.nextOffset⟩
    · rw [hstate]
    · rw [hstate]
    · rw [hstate]

end Later

/-- Allocation keeps the invariant. -/
theorem SpaceInv.allocate {members : List MultiXactMember}
    (hne : members ≠ []) (hsmall : members.length < 2 ^ 31) :
    SpaceInv r w (s.allocate env members) := by
  rw [MxSystem.allocate]
  cases hnew : GetNewMultiXactId env s.mx members.length with
  | mk res mx' =>
    cases res with
    | error e => exact h.allocate_error hnew
    | ok a => exact h.allocate_ok members hne hsmall (reserve_of_getNew hnew)

/-- **Every step keeps the invariant.** -/
theorem SpaceInv.step {e : MxEvent} {limit : ℕ} (hlimit : limit ≤ 2 ^ 31)
    (hok : SpaceStep limit s e) : SpaceInv r w (mxStep env s e) := by
  cases e with
  | allocate members => exact h.allocate hok.1 (lt_of_lt_of_le hok.2 hlimit)
  | record i => exact h.record i
  | setIdLimit i => exact h.setIdLimit hok.1 hok.2.1 hok.2.2
  | setOffsetLimit => exact h.setOffsetLimit hok
  | truncate i dir => exact h.truncate hok.1 hok.2.1 hok.2.2.1 hok.2.2.2 dir

end Steps

/-! ### Safety -/

section Safety

variable {env : MultiXactEnv} {r w : ℕ} {s : MxSystem} {nmembers : ℕ} {a : NewMultiXact}
  {mx' : Multixact}

section New

variable (h : SpaceInv r w s) (hsmall : nmembers < 2 ^ 31)
  (hok : GetNewMultiXactId env s.mx nmembers = (.ok a, mx'))

include h hsmall hok

/-- The slots of a new multixact, not wrapped around. -/
theorem SpaceInv.getNew_start :
    ∃ v, slotAt w s.allocs s.log.length ≤ v ∧ a.offset = v % 2 ^ 32 ∧
      v + nmembers = slotAt w s.allocs s.log.length + a.slots := by
  obtain ⟨hoff, hslots, -⟩ := h.reserveNext_ok hsmall (reserve_of_getNew hok)
  have hnew : AllocatedAt (slotAt w s.allocs s.log.length) ⟨a.multi, a.offset, nmembers, a.slots⟩ :=
    ⟨hoff, hslots⟩
  exact hnew.exists_start

/-- New members are outside the range of the multixacts that are kept. -/
theorem SpaceInv.outside {c : Creation}
    (hc : c ∈ s.log.drop s.oldest) {x y : ℕ} (hx : x < nmembers) (hy : y < c.alloc.nmembers) :
    (a.offset + x) % 2 ^ 32 ≠ (c.alloc.offset + y) % 2 ^ 32 := by
  obtain ⟨-, -, hroom, -⟩ := h.reserveNext_ok hsmall (reserve_of_getNew hok)
  obtain ⟨L, hL, hstop, hlt⟩ := h.limit
  have hend := hroom L (le_trans hL (slotAt_mono h.oldest_le)) hstop hlt
  obtain ⟨v, hv, hv', hvend⟩ := h.getNew_start hsmall hok
  obtain ⟨X, hX, hXlow, hXhigh⟩ := h.slot_of_mem hc hy
  have hround := stopSlot_le L
  rw [hX, hv']
  omega

/-- The pages of new members are there. -/
theorem SpaceInv.present {x : ℕ} (hx : x < nmembers) :
    mx'.members.pages (MXOffsetToMemberPage ((a.offset + x) % 2 ^ 32)) ≠ none := by
  obtain ⟨-, -, -, hmems⟩ := h.reserveNext_ok hsmall (reserve_of_getNew hok)
  obtain ⟨v, hv, hv', hvend⟩ := h.getNew_start hsmall hok
  have hpage := extendMember_range h.next (X := v + x) (m := a.slots) (by omega) (by omega)
  rw [hmems, hv', mod_add_mod]
  exact hpage

end New

/-- The pages that are entered are zeroed. -/
theorem SpaceInv.zeroed (h : SpaceInv r w s)
    (hok : GetNewMultiXactId env s.mx nmembers = (.ok a, mx')) {p : ℕ}
    (hp : EnteredBy s.mx.state.nextOffset a.slots p) : mx'.members.pages p = some fun _ => 0 := by
  have hresv := reserve_of_getNew hok
  have hnext : (fixNextMXact s.mx.state).nextOffset = s.mx.state.nextOffset := by
    rw [fixNextMXact_eq]
  have hword : s.mx.state.nextOffset % 2 ^ 32 = s.mx.state.nextOffset := by
    rw [h.counters.nextOffset, mod_mod]
  obtain ⟨rfl, -⟩ := reserve_ok hresv
  obtain ⟨-, hmems⟩ := reserve_members hresv
  simp only [hnext] at hmems hp
  obtain ⟨x, hx, hfirst, hpage⟩ := hp
  have hin : StartsIn s.mx.state.nextOffset (slotsTaken s.mx.state.nextOffset nmembers) p :=
    ⟨s.mx.state.nextOffset + x, by omega, by omega, hfirst, hpage⟩
  have hzero := @extendMember_first s.mx.members p _ _ hin
  rw [hword] at hzero
  rw [hmems]
  exact hzero

/-- **The invariant makes the space safe.** -/
theorem SpaceInv.safe (h : SpaceInv r w s) : SpaceSafe env s where
  outside nmembers _ hsmall a mx' hok c hc x hx y hy :=
    h.outside (lt_trans hsmall (by decide)) hok hc hx hy
  present nmembers _ hsmall a mx' hok x hx := h.present (lt_trans hsmall (by decide)) hok hx
  zeroed nmembers a mx' hok p hp := h.zeroed hok hp
  truncation i dir hle hi hold hnew := by
    obtain ⟨mx', heq, hcase⟩ := h.truncateMultiXact hle hi hold hnew dir
    refine ⟨mx', heq, fun c hc y hy => ?_⟩
    rcases hcase with rfl | ⟨-, -, hpages⟩
    · rfl
    · obtain ⟨X, hX, hlow, hhigh⟩ := h.slot_of_mem hc hy
      rw [hX]
      exact hpages X hlow (hhigh.le)

/-- Before the first step, at any number of the counter: the slot of the limit is as far back as its
offset is. -/
theorem SpaceStart.inv (h : SpaceStart s) (hr : s.mx.state.nextMXact = nth r) :
    ∃ w, SpaceInv r w s := by
  have halloc : s.allocs = [] := by
    rw [MxSystem.allocs, h.log]
    rfl
  have hskip : skip s.mx.state.nextMXact = s.mx.state.nextMXact :=
    if_neg (ne_of_gt h.nextMXact.1)
  have hslot : slotAt (s.mx.state.nextOffset + 2 ^ 32) [] 0 = s.mx.state.nextOffset + 2 ^ 32 := rfl
  have hword : (s.mx.state.nextOffset + 2 ^ 32) % 2 ^ 32 = s.mx.state.nextOffset := by
    rw [add_mod_right, mod_eq_of_lt h.nextOffset]
  refine ⟨s.mx.state.nextOffset + 2 ^ 32, ?_⟩
  constructor
  case ledger => rw [halloc]; exact ledger_nil _ _
  case counters => rw [halloc]; exact ⟨hskip.trans hr, h.nextMXact.2, hword.symm⟩
  case base => exact le_add_left _ _
  case nonempty =>
    rw [halloc]
    intro a ha
    cases ha
  case oldest_le => rw [h.oldest]; exact zero_le _
  case oldestMulti => rw [h.oldestMulti, h.oldest, hr]; rfl
  case known => exact h.known
  case limit =>
    obtain ⟨o, ho, hstop, hroom⟩ := h.limit
    have hnext := h.nextOffset
    rw [halloc, h.log, h.oldest, length_nil, hslot]
    obtain ⟨L, hL, hLword, hdist⟩ : ∃ L ≤ s.mx.state.nextOffset + 2 ^ 32, L % 2 ^ 32 = o ∧
        s.mx.state.nextOffset + 2 ^ 32 = L + Word32.sub s.mx.state.nextOffset o := by
      rcases lt_or_ge s.mx.state.nextOffset o with hlt | hge
      · exact ⟨o, by omega, mod_eq_of_lt ho, by rw [Word32.sub_of_lt hlt ho]; omega⟩
      · exact ⟨o + 2 ^ 32, by omega, by omega, by rw [Word32.sub_of_le hge hnext]; omega⟩
    refine ⟨L, hL, ?_, ?_⟩
    · rw [hstop, ← offsetStopLimitFor_eq, hLword]
    · rw [stopSlot, segmentStart, hLword]
      omega
  case pages =>
    rw [h.oldest, h.log]
    exact fun X hle hlt => absurd hlt (not_lt.mpr hle)
  case next =>
    have hpage := h.page
    rw [halloc, h.log, length_nil, hslot]
    rw [FirstOfPage, mod_eq_of_lt h.nextOffset] at hpage
    rw [FirstOfPage, hword, slotPage, hword]
    rwa [slotPage, mod_eq_of_lt h.nextOffset] at hpage

end Safety

/-- **Member storage is never overrun or truncated while it is needed**: in every state of every
run of creations, limits and truncations, whatever the counters at the start. -/
theorem member_space_safe (env : MultiXactEnv) (s : MxSystem) (hstart : SpaceStart s)
    (events : List MxEvent) (hok : AlongRun env (SpaceStep membersPerSegment) s events) :
    SpaceSafe env (mxRun env s events) := by
  obtain ⟨-, r, -, -, hr, -⟩ := exists_nth_after hstart.nextMXact hstart.nextMXact
  obtain ⟨w, h⟩ := hstart.inv hr
  have hrun : SpaceInv r w (mxRun env s events) :=
    mxRun_induction (fun _ _ hs hstep => hs.step (by decide) hstep) h hok
  exact hrun.safe

/-- A cluster whose next id is the last one, and whose next offset is three slots before the end. -/
def lastSlotsSystem : MxSystem where
  mx :=
    { state :=
        { nextMXact := 2 ^ 32 - 1
          nextOffset := 2 ^ 32 - 3
          oldestMultiXactId := 2 ^ 32 - 1
          oldestOffset := 2 ^ 32 - 3
          oldestOffsetKnown := true
          multiVacLimit := 399999999
          multiWarnLimit := 2107483646
          multiStopLimit := 2144483646
          multiWrapLimit := 2147483646
          offsetStopLimit := offsetStopLimitFor (2 ^ 32 - 3) }
      offsets := ⟨fun p => if p = 2097151 then some fun _ => 0 else none, 2097151⟩
      members := ⟨fun p => if p = 2625285 then some fun _ => 0 else none, 2625285⟩ }
  log := []
  oldest := 0

/-- Two multixacts around the end of the ids and of the slots; then the first one is removed. -/
def lastSlotsEvents : List MxEvent :=
  [.allocate [⟨700, .ForShare⟩, ⟨701, .ForShare⟩], .record 0,
    .allocate [⟨700, .ForShare⟩, ⟨702, .Update⟩, ⟨703, .ForKeyShare⟩], .record 1,
    .setOffsetLimit, .truncate 1 [], .setIdLimit 1]

/-- The start of a run around the end of the slots. -/
theorem lastSlotsSystem_start : SpaceStart lastSlotsSystem :=
  ⟨rfl, rfl, by decide, by decide, rfl, rfl, ⟨2 ^ 32 - 3, by decide, rfl, by decide⟩,
    fun _ => by decide⟩

/-- A run around the end of the ids and of the slots. -/
theorem member_space_safe_last_slots :
    (mxRun servingEnv lastSlotsSystem lastSlotsEvents).log.map (fun c => c.alloc.offset) =
      [2 ^ 32 - 3, 2 ^ 32 - 1] ∧
    SpaceSafe servingEnv (mxRun servingEnv lastSlotsSystem lastSlotsEvents) :=
  ⟨by decide +kernel, member_space_safe servingEnv lastSlotsSystem lastSlotsSystem_start
    lastSlotsEvents ⟨by decide, by decide, by decide, by decide, by decide +kernel,
      by decide +kernel, by decide +kernel, trivial⟩⟩

end FdPostgres
