import FdPostgres.Multixact.Pages

/-!
# Storing and Reading Members

A page of the members area holds groups of four members: a word with the four statuses, a byte
each, and four words with the transaction ids.

* `slotRead`, `memberAt`: the member in a slot of a page, and of the area.
* `slotRead_storeMember_self`, `slotRead_storeMember_other`: storing a member changes its slot only.
* `recordMembers_ok`: the loop that records the members of a multixact stores them in consecutive
  slots, wrapping around, and changes no other slot.
* `readMembers_ok`: the loop that reads them returns what the slots hold, without the slots that
  hold no transaction.
-/

namespace FdPostgres

open Function List Option

/-! ### Flags -/

/-- The status that was set. -/
theorem setFlags_self (flagsval : ℕ) {status bshift : ℕ} (hstat : status < 256)
    (hshift : bshift ≤ 24) : (setFlags flagsval status bshift >>> bshift) &&& 255 = status := by
  have hmask : (255 : ℕ) = 2 ^ 8 - 1 := rfl
  refine Nat.eq_of_testBit_eq fun i => ?_
  rw [setFlags, Nat.testBit_and, Nat.testBit_shiftRight, Nat.testBit_or, Nat.testBit_and,
    Nat.testBit_xor, Nat.testBit_shiftLeft, hmask,
    Nat.testBit_two_pow_sub_one, Nat.testBit_two_pow_sub_one, Nat.testBit_two_pow_sub_one]
  by_cases hi : i < 8
  · have hword : bshift + i < 32 := by omega
    simp [hi, hword]
  · have hbit : status.testBit i = false :=
      Nat.testBit_lt_two_pow (lt_of_lt_of_le hstat (Nat.pow_le_pow_right (n := 2) (by decide)
        (Nat.le_of_not_lt hi)))
    simp [hi, hbit]

/-- The other statuses are left. -/
theorem setFlags_other (flagsval : ℕ) {status bshift bshift' : ℕ} (hstat : status < 256)
    (hshift : bshift' ≤ 24) (hapart : bshift + 8 ≤ bshift' ∨ bshift' + 8 ≤ bshift) :
    (setFlags flagsval status bshift >>> bshift') &&& 255 = (flagsval >>> bshift') &&& 255 := by
  have hmask : (255 : ℕ) = 2 ^ 8 - 1 := rfl
  refine Nat.eq_of_testBit_eq fun i => ?_
  rw [setFlags, Nat.testBit_and, Nat.testBit_and, Nat.testBit_shiftRight, Nat.testBit_or,
    Nat.testBit_and, Nat.testBit_xor, Nat.testBit_shiftLeft,
    hmask, Nat.testBit_two_pow_sub_one, Nat.testBit_two_pow_sub_one,
    Nat.testBit_two_pow_sub_one]
  by_cases hi : i < 8
  · have hword : bshift' + i < 32 := by omega
    rcases hapart with hlow | hhigh
    · have hout : ¬ bshift' + i - bshift < 8 := by omega
      have hbit : status.testBit (bshift' + i - bshift) = false :=
        Nat.testBit_lt_two_pow (lt_of_lt_of_le hstat
          (Nat.pow_le_pow_right (n := 2) (by decide) (Nat.le_of_not_lt hout)))
      simp [hword, hout, hbit]
    · have hout : ¬ bshift ≤ bshift' + i := by omega
      simp [hword, hout]
  · simp [hi]

/-- The numbers of the statuses fit in a byte. -/
theorem MultiXactStatus.code_lt (status : MultiXactStatus) : status.code < 256 := by
  cases status <;> decide

/-! ### Slots of a page -/

/-- The member in a slot: its transaction id and the number of its status. -/
def slotRead (page : ℕ → ℕ) (offset : ℕ) : ℕ × ℕ :=
  (page (MXOffsetToMemberOffset offset),
    (page (MXOffsetToFlagsOffset offset) >>> MXOffsetToFlagsBitShift offset) &&& 255)

section Slots

variable (page : ℕ → ℕ) {o o' : ℕ} (m : MultiXactMember)

theorem memberOffset_eq : MXOffsetToMemberOffset o = o / 4 % 409 * 20 + 4 + o % 4 * 4 := rfl

/-- Transaction ids and flags are in different words. -/
theorem memberOffset_ne_flagsOffset : MXOffsetToMemberOffset o ≠ MXOffsetToFlagsOffset o' := by
  rw [memberOffset_eq, flagsOffset_eq]
  omega

theorem slot_mod (o : ℕ) : o % 1636 = o % 4 + 4 * (o / 4 % 409) := by
  have hsplit : o % (4 * 409) = o % 4 + 4 * (o / 4 % 409) := Nat.mod_mul
  exact hsplit

/-- The slots of a page have their transaction ids in different words. -/
theorem memberOffset_ne (h : o % 1636 ≠ o' % 1636) :
    MXOffsetToMemberOffset o ≠ MXOffsetToMemberOffset o' := by
  rw [slot_mod, slot_mod] at h
  rw [memberOffset_eq, memberOffset_eq]
  omega

/-- The slots of a group have their statuses in different bytes. -/
theorem flagsBitShift_apart (h : o % 1636 ≠ o' % 1636)
    (hgroup : MXOffsetToFlagsOffset o = MXOffsetToFlagsOffset o') :
    MXOffsetToFlagsBitShift o + 8 ≤ MXOffsetToFlagsBitShift o' ∨
      MXOffsetToFlagsBitShift o' + 8 ≤ MXOffsetToFlagsBitShift o := by
  rw [slot_mod] at h
  rw [flagsOffset_eq, flagsOffset_eq] at hgroup
  rw [flagsBitShift_eq, flagsBitShift_eq]
  omega

theorem flagsBitShift_le (o : ℕ) : MXOffsetToFlagsBitShift o ≤ 24 := by
  rw [flagsBitShift_eq]
  omega

/-- **A member that was stored is read back.** -/
theorem slotRead_storeMember_self : slotRead (storeMember page o m) o = m.raw := by
  simp only [slotRead, storeMember]
  rw [update_self, update_of_ne memberOffset_ne_flagsOffset,
    update_self, setFlags_self _ m.status.code_lt (flagsBitShift_le o)]
  rfl

/-- **The other slots of the page are left.** -/
theorem slotRead_storeMember_other (h : o % 1636 ≠ o' % 1636) :
    slotRead (storeMember page o m) o' = slotRead page o' := by
  have hflags : (update page (MXOffsetToMemberOffset o) m.xid)
      (MXOffsetToFlagsOffset o) = page (MXOffsetToFlagsOffset o) :=
    update_of_ne memberOffset_ne_flagsOffset.symm _ _
  simp only [slotRead, storeMember, hflags]
  rw [update_of_ne memberOffset_ne_flagsOffset, update_of_ne (memberOffset_ne h).symm]
  by_cases hgroup : MXOffsetToFlagsOffset o = MXOffsetToFlagsOffset o'
  · rw [← hgroup, update_self, setFlags_other _ m.status.code_lt (flagsBitShift_le o')
      (flagsBitShift_apart h hgroup)]
  · rw [update_of_ne (Ne.symm hgroup), update_of_ne memberOffset_ne_flagsOffset.symm]

end Slots

/-! ### Slots of the area -/

/-- The member in a slot of the area, if its page is there. -/
def memberAt (ctl : Slru) (offset : ℕ) : Option (ℕ × ℕ) :=
  (ctl.pages (MXOffsetToMemberPage offset)).map fun page => slotRead page offset

/-- A slot depends on its page. -/
theorem memberAt_congr {ctl ctl' : Slru} {o : ℕ}
    (h : ctl'.pages (MXOffsetToMemberPage o) = ctl.pages (MXOffsetToMemberPage o)) :
    memberAt ctl' o = memberAt ctl o := by
  rw [memberAt, memberAt, h]

section Store

variable {ctl : Slru} {o : ℕ} {page : ℕ → ℕ} (m : MultiXactMember)

/-- A member stored in the area. -/
theorem memberAt_store_self :
    memberAt (ctl.setPage (MXOffsetToMemberPage o) (storeMember page o m)) o = some m.raw := by
  simp [memberAt, Slru.setPage, slotRead_storeMember_self]

/-- The other slots of the area are left. -/
theorem memberAt_store_other {o' : ℕ} (hpage : ctl.pages (MXOffsetToMemberPage o) = some page)
    (h : o ≠ o') :
    memberAt (ctl.setPage (MXOffsetToMemberPage o) (storeMember page o m)) o' =
      memberAt ctl o' := by
  simp only [memberAt, Slru.setPage]
  by_cases hsame : MXOffsetToMemberPage o' = MXOffsetToMemberPage o
  · have hslot : o % 1636 ≠ o' % 1636 := by
      simp only [MXOffsetToMemberPage, membersPerPage_eq] at hsame
      omega
    rw [hsame, update_self, hpage, map_some, map_some, slotRead_storeMember_other page m hslot]
  · rw [update_of_ne hsame]

end Store

/-! ### The loops -/

theorem add_succ_mod (o x : ℕ) : ((o + 1) % 2 ^ 32 + x) % 2 ^ 32 = (o + (x + 1)) % 2 ^ 32 := by
  omega

/-- **The members of a multixact are recorded in consecutive slots**, and no other slot changes. -/
theorem recordMembers_ok (members : List MultiXactMember) (ctl : Slru) {o : ℕ} (ho : o < 2 ^ 32)
    (hlen : members.length ≤ 2 ^ 32)
    (hpages : ∀ x < members.length, ctl.pages (MXOffsetToMemberPage ((o + x) % 2 ^ 32)) ≠ none) :
    (recordMembers ctl o members).1 = .ok () ∧ (∀ x m, members[x]? = some m →
        memberAt (recordMembers ctl o members).2 ((o + x) % 2 ^ 32) = some m.raw) ∧
      ∀ q, (∀ x < members.length, (o + x) % 2 ^ 32 ≠ q) →
        memberAt (recordMembers ctl o members).2 q = memberAt ctl q := by
  induction members generalizing ctl o with
  | nil =>
    refine ⟨rfl, fun x m hx => ?_, fun q _ => rfl⟩
    cases hx
  | cons m members ih =>
    rw [length_cons] at hlen
    have hfirst := hpages 0 (by rw [length_cons]; omega)
    rw [add_zero, Nat.mod_eq_of_lt ho] at hfirst
    obtain ⟨page, hpage⟩ := ne_none_iff_exists'.mp hfirst
    simp only [recordMembers, hpage]
    -- storing the member leaves every page there
    have hrest : ∀ x < members.length,
        (ctl.setPage (MXOffsetToMemberPage o) (storeMember page o m)).pages
          (MXOffsetToMemberPage (((o + 1) % 2 ^ 32 + x) % 2 ^ 32)) ≠ none := by
      intro x hx
      have hold := hpages (x + 1) (by rw [length_cons]; omega)
      rw [add_succ_mod]
      simp only [Slru.setPage]
      by_cases hsame : MXOffsetToMemberPage ((o + (x + 1)) % 2 ^ 32) = MXOffsetToMemberPage o
      · rw [hsame, update_self]
        exact some_ne_none _
      · rw [update_of_ne hsame]
        exact hold
    obtain ⟨hok, hstor, hother⟩ := ih
      (ctl.setPage (MXOffsetToMemberPage o) (storeMember page o m))
      (Nat.mod_lt (o + 1) (Nat.two_pow_pos 32)) (by omega) hrest
    refine ⟨hok, fun x m' hx => ?_, fun q hq => ?_⟩
    · cases x with
      | zero =>
        obtain rfl : m = m' := by simpa using hx
        have hzero : (o + 0) % 2 ^ 32 = o := Nat.mod_eq_of_lt ho
        rw [hzero, hother o ?_]
        · exact memberAt_store_self m
        · omega
      | succ x =>
        rw [← add_succ_mod o x]
        exact hstor x m' hx
    · have hne : o ≠ q := by
        have hzero := hq 0 (by rw [length_cons]; omega)
        rwa [add_zero, Nat.mod_eq_of_lt ho] at hzero
      rw [hother q, memberAt_store_other m hpage hne]
      intro x hx
      rw [add_succ_mod]
      exact hq (x + 1) (by rw [length_cons]; omega)

/-- **The members that are read are those of consecutive slots**, without the slots that hold no
transaction. -/
theorem readMembers_ok (l : List (ℕ × ℕ)) (ctl : Slru) {o : ℕ} (ho : o < 2 ^ 32)
    (h : ∀ x v, l[x]? = some v → memberAt ctl ((o + x) % 2 ^ 32) = some v) :
    readMembers ctl o l.length = .ok (l.filter fun v => v.1 ≠ 0) := by
  induction l generalizing o with
  | nil => rfl
  | cons v l ih =>
    have hfirst := h 0 v rfl
    rw [add_zero, Nat.mod_eq_of_lt ho, memberAt, map_eq_some_iff] at hfirst
    obtain ⟨page, hpage, hread⟩ := hfirst
    have hrest : readMembers ctl ((o + 1) % 2 ^ 32) l.length = .ok (l.filter fun v => v.1 ≠ 0) := by
      refine ih (Nat.mod_lt _ (Nat.two_pow_pos 32)) fun x v' hx => ?_
      rw [add_succ_mod]
      exact h (x + 1) v' hx
    obtain ⟨hxid, hstat⟩ := Prod.mk.inj hread
    rw [length_cons, readMembers, hpage]
    simp only [hrest, hxid, hstat, InvalidTransactionId]
    split_ifs with hzero
    · rw [filter_cons_of_neg (by simpa using hzero)]
    · rw [filter_cons_of_pos (by simpa using hzero)]

end FdPostgres
