import FdPostgres.Multixact.Allocation
import FdPostgres.Lib.CircularBlocks

/-!
# Pages and Segments of the Members Area

The slots of the members area are given out in order and wrap around after `2 ^ 32` slots. A slot
number `X` that is not wrapped around stands for the slot `X % 2 ^ 32`. The last page of the area
and its last segment are short.

* `extendMember_first`, `extendMember_other`: extending the area for a range of slots zeroes
  exactly the pages whose first slot is in the range.
* `performMembersTruncation_eq`: the truncation ends, and deletes the segments from the one of the
  old start up to the one of the new start.
* `wouldWrap_eq_false`: a range that is not refused ends before the boundary.
-/

namespace FdPostgres

open CircularBlocks

/-! ### Pages -/

variable (X : ℕ)

/-- The page of a slot. -/
def slotPage : ℕ := MXOffsetToMemberPage (X % 2 ^ 32)

/-- The slot is the first one of its page. -/
def FirstOfPage : Prop := X % 2 ^ 32 % MULTIXACT_MEMBERS_PER_PAGE = 0

/-- A page whose first slot is in a range of slots. -/
def StartsIn (W m p : ℕ) : Prop := ∃ Y, W ≤ Y ∧ Y < W + m ∧ FirstOfPage Y ∧ slotPage Y = p

theorem membersPerPage_eq : MULTIXACT_MEMBERS_PER_PAGE = 1636 := rfl

theorem flagsOffset_eq (o : ℕ) : MXOffsetToFlagsOffset o = o / 4 % 409 * 20 := rfl

theorem flagsBitShift_eq (o : ℕ) : MXOffsetToFlagsBitShift o = o % 4 * 8 := rfl

theorem membersPerSegment_eq : membersPerSegment = 52352 := rfl

/-- The first slot of a page is where its flags and their shift are zero. -/
theorem firstOfPage_iff : FirstOfPage X ↔
    MXOffsetToFlagsOffset (X % 2 ^ 32) = 0 ∧ MXOffsetToFlagsBitShift (X % 2 ^ 32) = 0 := by
  rw [FirstOfPage, membersPerPage_eq, flagsOffset_eq, flagsBitShift_eq]
  omega

/-- A round of the extension ends with the page, also on the last one. -/
theorem membersToPageEnd_spec {o : ℕ} (ho : o < 2 ^ 32) :
    0 < membersToPageEnd o ∧ o + membersToPageEnd o ≤ 2 ^ 32 ∧
      o % 1636 + membersToPageEnd o ≤ 1636 := by
  have hlast : MAX_MEMBERS_IN_LAST_MEMBERS_PAGE = 1036 := rfl
  have hmax : MaxMultiXactOffset = 2 ^ 32 - 1 := rfl
  rw [membersToPageEnd, hlast, membersPerPage_eq]
  split <;> omega

/-- The pages of a round, and those of the rest. -/
theorem startsIn_iff {W m p : ℕ} (hm : m ≠ 0) :
    StartsIn W m p ↔ (FirstOfPage W ∧ slotPage W = p) ∨
      StartsIn (W + membersToPageEnd (W % 2 ^ 32)) (m - membersToPageEnd (W % 2 ^ 32)) p := by
  obtain ⟨hpos, hend, hpage⟩ := membersToPageEnd_spec (Nat.mod_lt W (Nat.two_pow_pos 32))
  generalize membersToPageEnd (W % 2 ^ 32) = d at hpos hend hpage
  constructor
  · rintro ⟨Y, hle, hlt, hfirst, rfl⟩
    rcases eq_or_lt_of_le hle with rfl | hgt
    · exact .inl ⟨hfirst, rfl⟩
    · have hY : W + d ≤ Y := by
        by_contra hnot
        rw [FirstOfPage, membersPerPage_eq] at hfirst
        have hmod : Y % 2 ^ 32 = W % 2 ^ 32 + (Y - W) := by omega
        omega
      exact .inr ⟨Y, hY, by omega, hfirst, rfl⟩
  · rintro (⟨hfirst, rfl⟩ | ⟨Y, hle, hlt, hfirst, rfl⟩)
    · exact ⟨W, le_refl W, by omega, hfirst, rfl⟩
    · exact ⟨Y, by omega, by omega, hfirst, rfl⟩

section Extend

variable {ctl : Slru} {p : ℕ} (fuel W m : ℕ)

/-- A round of the extension. -/
theorem extendMemberLoop_succ (hm : m ≠ 0) :
    extendMemberLoop (fuel + 1) ctl (W % 2 ^ 32) m = extendMemberLoop fuel
        (if MXOffsetToFlagsOffset (W % 2 ^ 32) = 0 ∧ MXOffsetToFlagsBitShift (W % 2 ^ 32) = 0 then
          SimpleLruZeroPage ctl (slotPage W) else ctl)
        ((W + membersToPageEnd (W % 2 ^ 32)) % 2 ^ 32) (m - membersToPageEnd (W % 2 ^ 32)) := by
  rw [extendMemberLoop, if_neg hm, Nat.mod_add_mod]
  rfl

/-- The other pages are left. -/
theorem extendMemberLoop_other (hp : ¬ StartsIn W m p) :
    (extendMemberLoop fuel ctl (W % 2 ^ 32) m).pages p = ctl.pages p := by
  induction fuel generalizing ctl W m with
  | zero => rfl
  | succ fuel ih =>
    by_cases hm : m = 0
    · rw [extendMemberLoop, if_pos hm]
    · rw [startsIn_iff hm, not_or] at hp
      rw [extendMemberLoop_succ fuel W m hm, ih _ _ hp.2]
      split
      case isTrue hfirst =>
        have hne : p ≠ slotPage W := fun heq => hp.1 ⟨(firstOfPage_iff W).mpr hfirst, heq.symm⟩
        exact Function.update_of_ne hne _ _
      case isFalse => rfl

/-- A page that was zeroed stays zeroed. -/
theorem extendMemberLoop_zeroed (hp : ctl.pages p = some fun _ => 0) :
    (extendMemberLoop fuel ctl (W % 2 ^ 32) m).pages p = some fun _ => 0 := by
  induction fuel generalizing ctl W m with
  | zero => exact hp
  | succ fuel ih =>
    by_cases hm : m = 0
    · rw [extendMemberLoop, if_pos hm]
      exact hp
    · rw [extendMemberLoop_succ fuel W m hm]
      refine ih _ _ ?_
      split
      · by_cases heq : p = slotPage W
        · rw [heq]
          exact Function.update_self _ _ _
        · exact (Function.update_of_ne heq _ _).trans hp
      · exact hp

/-- The pages that start in the range are zeroed. -/
theorem extendMemberLoop_first (hfuel : m ≤ fuel) (hp : StartsIn W m p) :
    (extendMemberLoop fuel ctl (W % 2 ^ 32) m).pages p = some fun _ => 0 := by
  induction fuel generalizing ctl W m with
  | zero =>
    obtain ⟨Y, hle, hlt, -⟩ := hp
    omega
  | succ fuel ih =>
    have hm : m ≠ 0 := by
      obtain ⟨Y, hle, hlt, -⟩ := hp
      omega
    have hpos := (membersToPageEnd_spec (Nat.mod_lt W (Nat.two_pow_pos 32))).1
    rw [extendMemberLoop_succ fuel W m hm]
    rcases (startsIn_iff hm).mp hp with ⟨hfirst, rfl⟩ | hrest
    · rw [if_pos ((firstOfPage_iff W).mp hfirst)]
      exact extendMemberLoop_zeroed _ _ _ (Function.update_self _ _ _)
    · exact ih _ _ (by omega) hrest

/-- **Extending the area zeroes the pages that start in the range.** -/
theorem extendMember_first {W m : ℕ} (hp : StartsIn W m p) :
    (ExtendMultiXactMember ctl (W % 2 ^ 32) m).pages p = some fun _ => 0 :=
  extendMemberLoop_first m W m (le_refl m) hp

/-- **Extending the area leaves the other pages.** -/
theorem extendMember_other {W m : ℕ} (hp : ¬ StartsIn W m p) :
    (ExtendMultiXactMember ctl (W % 2 ^ 32) m).pages p = ctl.pages p :=
  extendMemberLoop_other m W m hp

/-- No page is lost. -/
theorem extendMember_ne_none {W m : ℕ} (hp : ctl.pages p ≠ none) :
    (ExtendMultiXactMember ctl (W % 2 ^ 32) m).pages p ≠ none := by
  by_cases hin : StartsIn W m p
  · rw [extendMember_first hin]
    exact Option.some_ne_none _
  · rwa [extendMember_other hin]

/-- Every slot of the range has a page after the extension. -/
theorem extendMember_range {W m X : ℕ}
    (hnext : ¬ FirstOfPage W → ctl.pages (slotPage W) ≠ none) (hle : W ≤ X) (hlt : X < W + m) :
    (ExtendMultiXactMember ctl (W % 2 ^ 32) m).pages (slotPage X) ≠ none := by
  by_cases hin : StartsIn W m (slotPage X)
  · rw [extendMember_first hin]
    exact Option.some_ne_none _
  · rw [extendMember_other hin]
    -- the page of the slot starts before the range, so it is the page of the first slot
    have hback := Nat.mod_sub_of_le (Nat.mod_le (X % 2 ^ 32) 1636)
    have hstart : X - X % 2 ^ 32 % 1636 < W := by
      by_contra hnot
      refine hin ⟨X - X % 2 ^ 32 % 1636, by omega, by omega, ?_, ?_⟩
      · rw [FirstOfPage, membersPerPage_eq, ← hback]
        omega
      · simp only [slotPage, MXOffsetToMemberPage, membersPerPage_eq, ← hback]
        omega
    have hmod : W % 2 ^ 32 = X % 2 ^ 32 - (X - W) := by omega
    have hsame : slotPage X = slotPage W := by
      simp only [slotPage, MXOffsetToMemberPage, membersPerPage_eq, hmod]
      omega
    rw [hsame]
    refine hnext ?_
    rw [FirstOfPage, membersPerPage_eq, hmod]
    omega

end Extend

/-! ### Segments -/

/-- The segment of a slot, not wrapped around. -/
def slotSegment : ℕ := index (2 ^ 32) membersPerSegment X

theorem count_segments : count (2 ^ 32) membersPerSegment = 82041 := rfl

theorem maxsegment_eq : MXOffsetToMemberSegment MaxMultiXactOffset = 82040 := rfl

/-- The segment of a slot wraps around to that of its page. -/
theorem slotSegment_mod : slotSegment X % 82041 = slotPage X / SLRU_PAGES_PER_SEGMENT := by
  rw [← count_segments, slotSegment, index_mod (Nat.two_pow_pos 32), slotPage,
    MXOffsetToMemberPage, Nat.div_div_eq_div_mul]
  rfl

/-- The first slot of the segment of a slot. -/
def segmentStart : ℕ := X - X % 2 ^ 32 % membersPerSegment

/-- The segments of later slots do not start earlier. -/
theorem segmentStart_mono {X Y : ℕ} (h : X ≤ Y) : segmentStart X ≤ segmentStart Y := by
  by_contra hnot
  have hle : Y < segmentStart X ∨ segmentStart X ≤ Y := lt_or_ge _ _
  have hX : segmentStart X ≤ X := Nat.sub_le _ _
  simp only [segmentStart, membersPerSegment_eq] at hnot hX hle
  -- both slots are between the start of the segment of `X` and the start of that of `Y`
  rcases lt_or_ge (X / 2 ^ 32) (Y / 2 ^ 32) with hround | hround
  · omega
  · omega

/-- A slot before the start of a segment is in an earlier segment. -/
theorem slotSegment_lt {X Y : ℕ} (h : X < segmentStart Y) : slotSegment X < slotSegment Y := by
  have hfirst : segmentStart Y % 2 ^ 32 % membersPerSegment = 0 := by
    rw [segmentStart, ← Nat.mod_sub_of_le (Nat.mod_le (Y % 2 ^ 32) membersPerSegment),
      membersPerSegment_eq]
    omega
  have hlt : slotSegment X < slotSegment (segmentStart Y) := index_lt (Nat.two_pow_pos 32) h hfirst
  exact lt_of_lt_of_le hlt (index_mono (Nat.two_pow_pos 32) (Nat.sub_le _ _))

theorem slotSegment_add : slotSegment (X + 2 ^ 32) = slotSegment X + 82041 :=
  index_add (Nat.two_pow_pos 32) X

/-- The segments deleted by a number of rounds. -/
theorem membersTruncationLoop_eq (t fuel : ℕ) (ctl : Slru) {a : ℕ} (ha : a < 82041)
    (ht : t < 82041) (hfuel : t < fuel) :
    ∃ ctl', membersTruncationLoop fuel ctl a ((a + t) % 82041) = some ctl' ∧
      ∀ p, (∀ i < t, (a + i) % 82041 ≠ p / SLRU_PAGES_PER_SEGMENT) →
        ctl'.pages p = ctl.pages p := by
  induction t generalizing fuel ctl a with
  | zero =>
    obtain ⟨fuel, rfl⟩ : ∃ f, fuel = f + 1 := ⟨fuel - 1, by omega⟩
    refine ⟨ctl, ?_, fun p _ => rfl⟩
    rw [membersTruncationLoop, if_pos (by omega)]
  | succ t ih =>
    obtain ⟨fuel, rfl⟩ : ∃ f, fuel = f + 1 := ⟨fuel - 1, by omega⟩
    have hnext : (if a = MXOffsetToMemberSegment MaxMultiXactOffset then 0 else a + 1) =
        (a + 1) % 82041 := by
      rw [maxsegment_eq]
      split <;> omega
    have hend : (a + (t + 1)) % 82041 = ((a + 1) % 82041 + t) % 82041 := by omega
    obtain ⟨ctl', heq, hpages⟩ := ih fuel (SlruDeleteSegment ctl a)
      (Nat.mod_lt (a + 1) (by decide)) (by omega) (by omega)
    refine ⟨ctl', ?_, fun p hp => ?_⟩
    · rw [membersTruncationLoop, if_neg (by omega), hnext, hend]
      exact heq
    · rw [hpages p (fun i hi => ?_)]
      · have hne : p / SLRU_PAGES_PER_SEGMENT ≠ a := by
          intro hpa
          exact hp 0 (by omega) (by omega)
        exact if_neg hne
      · have hstep : ((a + 1) % 82041 + i) % 82041 = (a + (i + 1)) % 82041 := by omega
        rw [hstep]
        exact hp (i + 1) (by omega)

/-- **The truncation of the members ends, and keeps the segments from the new start on**, up to a
round after the old start. -/
theorem performMembersTruncation_eq (ctl : Slru) {X Y : ℕ} (hle : slotSegment X ≤ slotSegment Y)
    (hround : slotSegment Y < slotSegment X + 82041) :
    ∃ ctl', PerformMembersTruncation ctl (X % 2 ^ 32) (Y % 2 ^ 32) = some ctl' ∧
      ∀ Z, slotSegment Y ≤ slotSegment Z → slotSegment Z < slotSegment X + 82041 →
        ctl'.pages (slotPage Z) = ctl.pages (slotPage Z) := by
  have hstart : MXOffsetToMemberSegment (X % 2 ^ 32) = slotSegment X % 82041 :=
    (slotSegment_mod X).symm
  have hend : MXOffsetToMemberSegment (Y % 2 ^ 32) =
      (slotSegment X % 82041 + (slotSegment Y - slotSegment X)) % 82041 := by
    have hY : MXOffsetToMemberSegment (Y % 2 ^ 32) = slotSegment Y % 82041 :=
      (slotSegment_mod Y).symm
    omega
  obtain ⟨ctl', heq, hpages⟩ := membersTruncationLoop_eq (slotSegment Y - slotSegment X)
    (MXOffsetToMemberSegment MaxMultiXactOffset + 1) ctl
    (Nat.mod_lt (slotSegment X) (by decide)) (by omega) (by rw [maxsegment_eq]; omega)
  refine ⟨ctl', ?_, fun Z hYZ hZ => hpages _ (fun i hi => ?_)⟩
  · rw [PerformMembersTruncation, hstart, hend]
    exact heq
  · rw [← slotSegment_mod Z]
    omega

/-! ### The boundary -/

/-- **A range that is not refused ends before the boundary.** -/
theorem wouldWrap_eq_false {B W m : ℕ} (hhigh : W < B) (hm : m < 2 ^ 32 - 1)
    (h : MultiXactOffsetWouldWrap (B % 2 ^ 32) (W % 2 ^ 32) m = false) : W + m < B := by
  rw [MultiXactOffsetWouldWrap] at h
  split at h
  all_goals
    rw [decide_eq_false_iff_not] at h
    split at h
    · omega
    · omega

/-- The stop limit, not wrapped around: a segment before the segment of the oldest offset, a round
later. -/
def stopSlot (L : ℕ) : ℕ := segmentStart L + 2 ^ 32 - membersPerSegment

/-- The stop limit is at least a segment before the offset, a round later. -/
theorem stopSlot_le (L : ℕ) : stopSlot L + 52352 ≤ L + 2 ^ 32 := by
  have hstart : segmentStart L ≤ L := Nat.sub_le _ _
  rw [stopSlot, membersPerSegment_eq]
  omega

/-- The stop limit wraps around to the one that is stored. -/
theorem offsetStopLimitFor_eq (L : ℕ) : offsetStopLimitFor (L % 2 ^ 32) = stopSlot L % 2 ^ 32 := by
  simp only [offsetStopLimitFor, stopSlot, segmentStart, Word32.sub, membersPerSegment_eq]
  omega

end FdPostgres
