import FdPostgres.Acl.Acl

/-!
# The Rights in an ACL

What an ACL says is which bits its items have for which grantee and grantor. The functions on ACLs
are described by these bits.

* `Has`: the ACL has a bit for a grantee and a grantor.
* `aclmask_getLsbD`: **`aclmask` finds the bits of a role.**
* `changeItem_has`: **a change of an item changes the bits of one grantee and grantor.**
* `aclnewowner_has`: **a new owner takes the place of the old one.**
-/

namespace FdPostgres.Acl

open List

/-! ### Bits -/

/-- The lower half of the bits. -/
theorem getLsbD_low (k : ℕ) : (0xFFFF#32).getLsbD k = decide (k < 16) := by
  by_cases hk : k < 32
  · have h : ∀ k : Fin 32, (0xFFFF#32).getLsbD k = decide (k.1 < 16) := by decide
    exact h ⟨k, hk⟩
  · rw [BitVec.getLsbD_of_ge _ _ (by omega), decide_eq_false (by omega)]

theorem getLsbD_privs (item : AclItem) (k : ℕ) :
    (ACLITEM_GET_PRIVS item).getLsbD k = (item.ai_privs.getLsbD k && decide (k < 16)) := by
  rw [ACLITEM_GET_PRIVS, BitVec.getLsbD_and, getLsbD_low]

/-- The bits of `ACL_OPTION_TO_PRIVS`. -/
theorem getLsbD_option (privs : BitVec 32) (k : ℕ) :
    (ACL_OPTION_TO_PRIVS privs).getLsbD k = privs.getLsbD (k + 16) := by
  rw [ACL_OPTION_TO_PRIVS, BitVec.getLsbD_and, getLsbD_low, BitVec.getLsbD_ushiftRight,
    Nat.add_comm]
  by_cases hk : k < 16
  · simp [hk]
  · rw [BitVec.getLsbD_of_ge _ _ (by omega), Bool.false_and]

/-- The grant option of `ACL_GRANT_OPTION_FOR`. -/
theorem getLsbD_optionFor (privs : BitVec 32) (k : ℕ) :
    (ACL_GRANT_OPTION_FOR privs).getLsbD (k + 16) = (privs.getLsbD k && decide (k < 16)) := by
  rw [ACL_GRANT_OPTION_FOR, BitVec.getLsbD_shiftLeft, BitVec.getLsbD_and, getLsbD_low]
  by_cases hk : k < 16
  · have h : k + 16 < 32 := by omega
    simp [h]
  · simp [hk]

variable {b : ℕ} {acl : List AclItem}

/-- `ACL_GRANT_OPTION_FOR` has grant options only. -/
theorem getLsbD_optionFor_low (privs : BitVec 32) (hb : b < 16) :
    (ACL_GRANT_OPTION_FOR privs).getLsbD b = false := by
  rw [ACL_GRANT_OPTION_FOR]
  simp [hb]

/-- The bits of a set of privileges with their grant options. -/
theorem getLsbD_rightsOf (privs : BitVec 32) (hb : b < 32) :
    (rightsOf privs privs).getLsbD b = privs.getLsbD (b % 16) := by
  rw [rightsOf, BitVec.getLsbD_or, BitVec.getLsbD_and, getLsbD_low]
  rcases Nat.lt_or_ge b 16 with h | h
  · rw [getLsbD_optionFor_low privs h, Nat.mod_eq_of_lt h]
    simp [h]
  · obtain ⟨k, rfl⟩ : ∃ k, b = k + 16 := ⟨b - 16, by omega⟩
    have hk : k < 16 := by omega
    have hge : ¬ k + 16 < 16 := by omega
    rw [getLsbD_optionFor, Nat.add_mod_right, Nat.mod_eq_of_lt hk]
    simp [hk, hge]

/-! ### The rights -/

/-- The ACL has a bit for a grantee and a grantor. -/
def Has (acl : List AclItem) (e g b : ℕ) : Prop :=
  ∃ item ∈ acl, item.ai_grantee = e ∧ item.ai_grantor = g ∧ item.ai_privs.getLsbD b = true

/-- The grantee and the grantor of an item. -/
def AclItem.parties (item : AclItem) : ℕ × ℕ := (item.ai_grantee, item.ai_grantor)

/-- No two items share grantee and grantor. -/
def Distinct (acl : List AclItem) : Prop := (acl.map AclItem.parties).Nodup

theorem Has.lt {e g : ℕ} (h : Has acl e g b) : b < 32 := by
  obtain ⟨item, -, -, -, hb⟩ := h
  exact BitVec.lt_of_getLsbD hb

@[simp] theorem has_nil (e g b : ℕ) : ¬ Has [] e g b := by
  rintro ⟨item, hmem, -⟩
  cases hmem

theorem has_cons (item : AclItem) (acl : List AclItem) (e g b : ℕ) :
    Has (item :: acl) e g b ↔
      item.parties = (e, g) ∧ item.ai_privs.getLsbD b = true ∨ Has acl e g b := by
  constructor
  · rintro ⟨i, hmem, rfl, rfl, hb⟩
    rcases mem_cons.mp hmem with rfl | hmem
    · exact .inl ⟨rfl, hb⟩
    · exact .inr ⟨i, hmem, rfl, rfl, hb⟩
  · rintro (⟨hp, hb⟩ | ⟨i, hmem, hi⟩)
    · obtain ⟨rfl, rfl⟩ := Prod.mk.inj hp
      exact ⟨item, mem_cons_self, rfl, rfl, hb⟩
    · exact ⟨i, mem_cons_of_mem _ hmem, hi⟩

theorem Has.mem_parties {e g : ℕ} (h : Has acl e g b) : (e, g) ∈ acl.map AclItem.parties := by
  obtain ⟨item, hmem, rfl, rfl, -⟩ := h
  exact mem_map_of_mem hmem

theorem aclitem_match_iff (a1 a2 : AclItem) :
    aclitem_match a1 a2 = true ↔ a1.parties = a2.parties := by
  rw [aclitem_match, Bool.and_eq_true, beq_iff_eq, beq_iff_eq]
  exact Prod.mk.injEq .. ▸ Iff.rfl

/-! ### Privileges of a role -/

/-- A pass that counts no item finds nothing. -/
theorem aclmaskPass_none {counts : BitVec 32 → AclItem → Bool} (mask : BitVec 32)
    (how : AclMaskHow) (hc : ∀ result item, counts result item = false) (acl : List AclItem)
    (result : BitVec 32) : aclmaskPass counts mask how acl result = (result, false) := by
  induction acl with
  | nil => rfl
  | cons item acl ih => rw [aclmaskPass, hc, if_neg Bool.false_ne_true, ih]

/-- The first pass of `aclmask` finds the bits of the role's own items. -/
theorem aclmaskPass_getLsbD (roleid : ℕ) (mask : BitVec 32) (acl : List AclItem) (b : ℕ)
    (result : BitVec 32) (hsub : ∀ b, result.getLsbD b = true → mask.getLsbD b = true) :
    (aclmaskPass (fun _ item => isDirect roleid item) mask .ACLMASK_ALL acl result).1.getLsbD b
        = true ↔ result.getLsbD b = true ∨ mask.getLsbD b = true ∧
        ∃ item ∈ acl, isDirect roleid item = true ∧ item.ai_privs.getLsbD b = true := by
  induction acl generalizing result with
  | nil => simp [aclmaskPass]
  | cons item acl ih =>
    rw [aclmaskPass]
    split_ifs with hd
    · have hbits : ∀ b, (result ||| item.ai_privs &&& mask).getLsbD b = true ↔
          result.getLsbD b = true ∨ item.ai_privs.getLsbD b = true ∧ mask.getLsbD b = true := by
        intro b
        rw [BitVec.getLsbD_or, BitVec.getLsbD_and, Bool.or_eq_true, Bool.and_eq_true]
      have hsub' : ∀ b, (result ||| item.ai_privs &&& mask).getLsbD b = true →
          mask.getLsbD b = true := by
        intro b hb
        rcases (hbits b).mp hb with hr | hr
        · exact hsub b hr
        · exact hr.2
      dsimp only
      split
      · rename_i hdone
        -- everything has been found
        have hall : result ||| item.ai_privs &&& mask = mask := by
          simpa only [aclmaskDone, beq_iff_eq] using hdone
        rw [hall]
        constructor
        · intro hm
          have hm' : (result ||| item.ai_privs &&& mask).getLsbD b = true := by
            rw [hall]
            exact hm
          rcases (hbits b).mp hm' with hr | hr
          · exact .inl hr
          · exact .inr ⟨hm, item, mem_cons_self, hd, hr.1⟩
        · rintro (hr | hr)
          · exact hsub b hr
          · exact hr.1
      · rw [ih _ hsub', hbits b, exists_mem_cons_iff]
        tauto
    · rw [ih _ hsub, exists_mem_cons_iff]
      tauto

/-- **`aclmask` finds the bits of a role:** the owner has all grant options. -/
theorem aclmask_getLsbD (acl : List AclItem) (roleid ownerId : ℕ) (mask : BitVec 32)
    (hmask : ∀ b, mask.getLsbD b = true → 16 ≤ b) (b : ℕ) :
    (aclmask acl roleid ownerId mask .ACLMASK_ALL).getLsbD b = true ↔
      mask.getLsbD b = true ∧ (roleid = ownerId ∨
        ∃ item ∈ acl, isDirect roleid item = true ∧ item.ai_privs.getLsbD b = true) := by
  have hgopt : mask &&& ACLITEM_ALL_GOPTION_BITS = mask := by
    refine BitVec.eq_of_getLsbD_eq fun b hb => ?_
    rw [BitVec.getLsbD_and]
    cases hm : mask.getLsbD b
    · rw [Bool.false_and]
    · have h : ∀ b : Fin 32, 16 ≤ b.1 → ACLITEM_ALL_GOPTION_BITS.getLsbD b = true := by decide
      rw [h ⟨b, hb⟩ (hmask b hm), Bool.true_and]
  rw [aclmask]
  by_cases hz : mask = 0#32
  · rw [if_pos hz, hz, BitVec.getLsbD_zero]
    simp
  rw [if_neg hz, hgopt]
  dsimp only
  by_cases hown : roleid = ownerId
  · rw [has_privs_of_role, hown]
    simp [hz, aclmaskDone]
  · have hpriv : has_privs_of_role roleid ownerId = false := by simpa [has_privs_of_role] using hown
    rw [hpriv, Bool.and_false, if_neg Bool.false_ne_true, Bool.false_and, if_neg Bool.false_ne_true]
    have hfirst := aclmaskPass_getLsbD roleid mask acl b 0#32 (by simp)
    have hgoal : (aclmaskPass (fun _ item => isDirect roleid item) mask .ACLMASK_ALL acl
        0#32).1.getLsbD b = true ↔ mask.getLsbD b = true ∧ (roleid = ownerId ∨
        ∃ item ∈ acl, isDirect roleid item = true ∧ item.ai_privs.getLsbD b = true) := by
      rw [hfirst]
      simp [hown]
    -- the second pass finds nothing: the role is a member of no other one
    have hsec : ∀ result : BitVec 32, ∀ item : AclItem, (!isDirect roleid item &&
        item.ai_privs &&& (mask &&& ~~~result) != 0#32 &&
          has_privs_of_role roleid item.ai_grantee) = false := by
      intro result item
      by_cases he : item.ai_grantee = roleid
      · simp [isDirect, he]
      · have : has_privs_of_role roleid item.ai_grantee = false := by
          simpa [has_privs_of_role] using fun h : roleid = item.ai_grantee => he h.symm
        rw [this, Bool.and_false]
    split
    · rename_i h
      rw [h] at hgoal
      exact hgoal
    · rename_i h
      rw [h] at hgoal
      rw [aclmaskPass_none mask .ACLMASK_ALL hsec]
      exact hgoal

/-! ### A change of an item -/

/-- The parties of a changed ACL. -/
theorem changeItem_parties {mod_aip : AclItem} {modechg : ModeChange} {p : ℕ × ℕ}
    (h : p ∈ (changeItem mod_aip modechg acl).1.map AclItem.parties) :
    p ∈ acl.map AclItem.parties ∨ p = mod_aip.parties := by
  induction acl with
  | nil =>
    simp only [changeItem] at h
    split at h
    · cases h
    · exact .inr (by simpa [AclItem.parties] using h)
  | cons item acl ih =>
    simp only [changeItem] at h
    rw [map_cons, mem_cons]
    split at h
    · split at h
      · exact .inl (.inr h)
      · rw [map_cons, mem_cons] at h
        exact .inl h
    · rw [map_cons, mem_cons] at h
      rcases h with h | h
      · exact .inl (.inl h)
      · exact (ih h).imp_left .inr

variable (mod_aip : AclItem) (modechg : ModeChange)

/-- No two items share grantee and grantor after a change. -/
theorem changeItem_distinct (hd : Distinct acl) : Distinct (changeItem mod_aip modechg acl).1 := by
  induction acl with
  | nil =>
    simp only [changeItem, Distinct]
    split <;> simp
  | cons item acl ih =>
    obtain ⟨hnot, hd'⟩ := nodup_cons.mp hd
    simp only [changeItem]
    split
    · split
      · exact hd'
      · exact hd
    · rename_i hm
      refine nodup_cons.mpr ⟨fun hmem => ?_, ih hd'⟩
      rcases changeItem_parties hmem with h | h
      · exact hnot h
      · exact hm ((aclitem_match_iff _ _).mpr h.symm)

/-- The rights before the change. -/
theorem changeItem_old (hd : Distinct acl) (b : ℕ) :
    (changeItem mod_aip modechg acl).2.getLsbD b = true ↔
      Has acl mod_aip.ai_grantee mod_aip.ai_grantor b := by
  induction acl with
  | nil => simp [changeItem]
  | cons item acl ih =>
    obtain ⟨hnot, hd'⟩ := nodup_cons.mp hd
    simp only [changeItem]
    rw [has_cons]
    split
    · rename_i hm
      have hp : item.parties = (mod_aip.ai_grantee, mod_aip.ai_grantor) :=
        ((aclitem_match_iff _ _).mp hm).symm
      constructor
      · intro hb
        exact .inl ⟨hp, hb⟩
      · rintro (⟨-, hb⟩ | hb)
        · exact hb
        · exact absurd (hp ▸ hb.mem_parties) hnot
    · rename_i hm
      rw [ih hd']
      constructor
      · exact .inr
      · rintro (⟨hp, -⟩ | hb)
        · exact absurd ((aclitem_match_iff _ _).mpr hp.symm) hm
        · exact hb

/-- **A change of an item changes the bits of one grantee and grantor.** -/
theorem changeItem_has (hd : Distinct acl) (e g b : ℕ) :
    Has (changeItem mod_aip modechg acl).1 e g b ↔
      (e, g) = mod_aip.parties ∧ (changeRights modechg (changeItem mod_aip modechg acl).2
        mod_aip.ai_privs).getLsbD b = true ∨ (e, g) ≠ mod_aip.parties ∧ Has acl e g b := by
  induction acl with
  | nil =>
    simp only [changeItem]
    split
    · rename_i hz
      simp [hz]
    · rw [has_cons]
      simp only [has_nil, or_false, and_false]
      exact and_congr_left fun _ => eq_comm
  | cons item acl ih =>
    obtain ⟨hnot, hd'⟩ := nodup_cons.mp hd
    simp only [changeItem]
    split
    · rename_i hm
      have hp : mod_aip.parties = item.parties := (aclitem_match_iff _ _).mp hm
      have htail : Has acl e g b → (e, g) ≠ item.parties := by
        intro hb heq
        exact hnot (heq ▸ hb.mem_parties)
      rw [hp, has_cons]
      split
      · rename_i hz
        rw [hz, BitVec.getLsbD_zero]
        constructor
        · intro hb
          exact .inr ⟨htail hb, .inr hb⟩
        · rintro (⟨-, hb⟩ | ⟨hne, hb⟩)
          · cases hb
          · exact hb.resolve_left fun h => hne h.1.symm
      · rw [has_cons]
        constructor
        · rintro (⟨hpe, hb⟩ | hb)
          · exact .inl ⟨hpe.symm, hb⟩
          · exact .inr ⟨htail hb, .inr hb⟩
        · rintro (⟨hpe, hb⟩ | ⟨hne, hb⟩)
          · exact .inl ⟨hpe.symm, hb⟩
          · exact .inr (hb.resolve_left fun h => hne h.1.symm)
    · rename_i hm
      have hp : mod_aip.parties ≠ item.parties := fun h => hm ((aclitem_match_iff _ _).mpr h)
      rw [has_cons, has_cons, ih hd']
      constructor
      · rintro (⟨hpe, hb⟩ | hb | ⟨hne, hb⟩)
        · exact .inr ⟨fun h => hp (hpe.trans h).symm, .inl ⟨hpe, hb⟩⟩
        · exact .inl hb
        · exact .inr ⟨hne, .inr hb⟩
      · rintro (hb | ⟨hne, hb | hb⟩)
        · exact .inr (.inl hb)
        · exact .inl hb
        · exact .inr (.inr ⟨hne, hb⟩)

/-- **A removal removes the bits of the change.** -/
theorem changeItem_del_has (hd : Distinct acl) (e g b : ℕ) :
    Has (changeItem mod_aip .DEL acl).1 e g b ↔
      Has acl e g b ∧ ¬ ((e, g) = mod_aip.parties ∧ mod_aip.ai_privs.getLsbD b = true) := by
  rw [changeItem_has mod_aip .DEL hd, changeRights, BitVec.getLsbD_and, Bool.and_eq_true,
    changeItem_old mod_aip .DEL hd]
  by_cases hp : (e, g) = mod_aip.parties
  · obtain ⟨rfl, rfl⟩ := Prod.mk.inj hp
    have hlt : Has acl mod_aip.ai_grantee mod_aip.ai_grantor b → b < 32 := Has.lt
    simp only [hp, true_and, ne_eq, not_true_eq_false, false_and, or_false]
    constructor
    · rintro ⟨hb, hn⟩
      exact ⟨hb, by simpa [hlt hb] using hn⟩
    · rintro ⟨hb, hn⟩
      exact ⟨hb, by simpa [hlt hb] using hn⟩
  · simp [hp]

/-- **An addition adds the bits of the change.** -/
theorem changeItem_add_has (hd : Distinct acl) (e g b : ℕ) :
    Has (changeItem mod_aip .ADD acl).1 e g b ↔
      Has acl e g b ∨ (e, g) = mod_aip.parties ∧ mod_aip.ai_privs.getLsbD b = true := by
  rw [changeItem_has mod_aip .ADD hd, changeRights, BitVec.getLsbD_or, Bool.or_eq_true,
    changeItem_old mod_aip .ADD hd]
  by_cases hp : (e, g) = mod_aip.parties
  · obtain ⟨rfl, rfl⟩ := Prod.mk.inj hp
    simp [hp]
  · simp [hp]

/-- A change that lets the item lose no bit lets it lose no grant option. -/
theorem lostOptions_add (old_rights : BitVec 32) : lostOptions mod_aip .ADD old_rights = 0#32 := by
  rw [BitVec.zero_iff_eq_false]
  intro k
  rw [lostOptions, changeRights, BitVec.getLsbD_and, BitVec.getLsbD_not, getLsbD_option,
    getLsbD_option, BitVec.getLsbD_or]
  cases old_rights.getLsbD (k + 16) <;> simp

/-- The grant options that a removal takes away. -/
theorem lostOptions_del (old_rights : BitVec 32) (k : ℕ) :
    (lostOptions mod_aip .DEL old_rights).getLsbD k =
      (old_rights.getLsbD (k + 16) && mod_aip.ai_privs.getLsbD (k + 16)) := by
  rw [lostOptions, changeRights, BitVec.getLsbD_and, BitVec.getLsbD_not, getLsbD_option,
    getLsbD_option, BitVec.getLsbD_and]
  cases hb : old_rights.getLsbD (k + 16)
  · simp
  · have hlt := BitVec.lt_of_getLsbD hb
    have hk : k < 32 := by omega
    simp [hlt, hk]

/-- A removal makes the ACL smaller by what the item loses. -/
theorem aclSize_changeItem (acl : List AclItem) :
    aclSize (changeItem mod_aip .DEL acl).1 + (changeItem mod_aip .DEL acl).2.toNat =
      aclSize acl + ((changeItem mod_aip .DEL acl).2 &&& ~~~mod_aip.ai_privs).toNat := by
  induction acl with
  | nil => simp [changeItem, changeRights]
  | cons item acl ih =>
    simp only [changeItem]
    split
    · split
      · rename_i hz
        rw [changeRights] at hz
        rw [hz]
        simp only [aclSize, map_cons, sum_cons, BitVec.toNat_ofNat]
        omega
      · simp only [aclSize, map_cons, sum_cons, changeRights]
        omega
    · simp only [aclSize, map_cons, sum_cons] at ih ⊢
      omega

/-- A removal of a bit that is there makes the ACL smaller. -/
theorem aclSize_changeItem_lt (hd : Distinct acl)
    (hb : Has acl mod_aip.ai_grantee mod_aip.ai_grantor b)
    (hmod : mod_aip.ai_privs.getLsbD b = true) :
    aclSize (changeItem mod_aip .DEL acl).1 < aclSize acl := by
  have h := aclSize_changeItem mod_aip acl
  have hle := @Nat.and_le_left (changeItem mod_aip .DEL acl).2.toNat (~~~mod_aip.ai_privs).toNat
  rw [← BitVec.toNat_and] at hle
  have hne : ((changeItem mod_aip .DEL acl).2 &&& ~~~mod_aip.ai_privs).toNat ≠
      (changeItem mod_aip .DEL acl).2.toNat := by
    intro heq
    have hbit := (changeItem_old mod_aip .DEL hd b).mpr hb
    rw [← BitVec.eq_of_toNat_eq heq, BitVec.getLsbD_and, BitVec.getLsbD_not, hmod] at hbit
    simp at hbit
  omega

/-! ### A new owner -/

/-- Items that match an item have no rights after the item has absorbed them. -/
theorem absorb_snd (targ : AclItem) (rest : List AclItem) (rights : BitVec 32) :
    (absorb targ rest rights).2 = rest.map fun src =>
      if aclitem_match targ src then { src with ai_privs := 0#32 } else src := by
  induction rest generalizing rights with
  | nil => rfl
  | cons src rest ih =>
    rw [absorb, map_cons]
    split
    · rename_i h
      rw [if_pos h.2, ← ih (rights ||| src.ai_privs)]
    · rename_i h
      rw [← ih rights]
      refine congrArg (fun i => i :: _) ?_
      split
      · rename_i hm
        have hz : src.ai_privs = 0#32 := by
          by_contra hne
          exact h ⟨hne, hm⟩
        rw [← hz]
      · rfl

/-- An item absorbs the rights of the items that match it. -/
theorem absorb_fst (targ : AclItem) (rest : List AclItem) (rights : BitVec 32) (b : ℕ) :
    (absorb targ rest rights).1.getLsbD b = true ↔
      rights.getLsbD b = true ∨ Has rest targ.ai_grantee targ.ai_grantor b := by
  induction rest generalizing rights with
  | nil => simp [absorb]
  | cons src rest ih =>
    rw [absorb, has_cons]
    split
    · rename_i h
      have hp := ((aclitem_match_iff _ _).mp h.2).symm
      rw [ih, BitVec.getLsbD_or, Bool.or_eq_true, or_assoc]
      refine or_congr_right (or_congr_left ?_)
      exact ⟨fun hb => ⟨hp, hb⟩, fun hb => hb.2⟩
    · rename_i h
      rw [ih]
      refine or_congr_right ⟨.inr, ?_⟩
      rintro (⟨hp, hb⟩ | hb)
      · refine absurd ⟨fun hz => ?_, (aclitem_match_iff _ _).mpr hp.symm⟩ h
        rw [hz, BitVec.getLsbD_zero] at hb
        cases hb
      · exact hb

/-- The items behind an item have the other rights. -/
theorem absorb_has (targ : AclItem) (rest : List AclItem) (rights : BitVec 32) (e g b : ℕ) :
    Has (absorb targ rest rights).2 e g b ↔ (e, g) ≠ targ.parties ∧ Has rest e g b := by
  rw [absorb_snd]
  constructor
  · rintro ⟨item, hmem, rfl, rfl, hb⟩
    obtain ⟨src, hsrc, rfl⟩ := mem_map.mp hmem
    by_cases hm : aclitem_match targ src = true
    · simp [hm] at hb
    · rw [if_neg hm] at hb ⊢
      exact ⟨fun hp => hm ((aclitem_match_iff _ _).mpr hp.symm), src, hsrc, rfl, rfl, hb⟩
  · rintro ⟨hne, src, hsrc, rfl, rfl, hb⟩
    have hm : ¬ aclitem_match targ src = true := fun hm => hne ((aclitem_match_iff _ _).mp hm).symm
    exact ⟨src, mem_map.mpr ⟨src, hsrc, if_neg hm⟩, rfl, rfl, hb⟩

/-- Merging keeps the rights. -/
theorem mergeLoop_has (fuel : ℕ) (hlen : acl.length ≤ fuel) (e g b : ℕ) :
    Has (mergeLoop fuel acl) e g b ↔ Has acl e g b := by
  induction fuel generalizing acl with
  | zero =>
    obtain rfl := length_eq_zero_iff.mp (Nat.le_zero.mp hlen)
    rfl
  | succ fuel ih =>
    cases acl with
    | nil => rfl
    | cons targ rest =>
      rw [length_cons] at hlen
      rw [mergeLoop]
      split
      · rename_i hz
        rw [ih (by omega), has_cons, hz]
        simp
      · have hlen' : (absorb targ rest targ.ai_privs).2.length ≤ fuel := by
          rw [absorb_snd, length_map]
          omega
        rw [has_cons, has_cons, ih hlen', absorb_has, absorb_fst]
        by_cases hp : targ.parties = (e, g)
        · obtain ⟨rfl, rfl⟩ := Prod.mk.inj hp
          simp [AclItem.parties]
        · have hp' : (e, g) ≠ targ.parties := fun h => hp h.symm
          have hp'' : (targ.ai_grantee, targ.ai_grantor) ≠ (e, g) := hp
          simp only [AclItem.parties, hp'', false_and, false_or]
          exact and_iff_right hp'

/-- Merged items have rights in the ACL. -/
theorem mergeLoop_parties (fuel : ℕ) {p : ℕ × ℕ} (h : p ∈ (mergeLoop fuel acl).map AclItem.parties)
    : ∃ item ∈ acl, item.ai_privs ≠ 0#32 ∧ item.parties = p := by
  induction fuel generalizing acl with
  | zero => cases h
  | succ fuel ih =>
    cases acl with
    | nil => cases h
    | cons targ rest =>
      rw [mergeLoop] at h
      split at h
      · obtain ⟨item, hmem, hi⟩ := ih h
        exact ⟨item, mem_cons_of_mem _ hmem, hi⟩
      · rename_i hz
        rw [map_cons, mem_cons] at h
        rcases h with rfl | h
        · exact ⟨targ, mem_cons_self, hz, rfl⟩
        · obtain ⟨item, hmem, hne, hp⟩ := ih h
          rw [absorb_snd] at hmem
          obtain ⟨src, hsrc, rfl⟩ := mem_map.mp hmem
          by_cases hm : aclitem_match targ src = true
          · simp [hm] at hne
          · rw [if_neg hm] at hne hp
            exact ⟨src, mem_cons_of_mem _ hsrc, hne, hp⟩

/-- After merging, no two items share grantee and grantor. -/
theorem mergeLoop_distinct (fuel : ℕ) (acl : List AclItem) : Distinct (mergeLoop fuel acl) := by
  induction fuel generalizing acl with
  | zero => exact nodup_nil
  | succ fuel ih =>
    cases acl with
    | nil => exact nodup_nil
    | cons targ rest =>
      rw [mergeLoop]
      split
      · exact ih rest
      · refine nodup_cons.mpr ⟨fun hmem => ?_, ih _⟩
        obtain ⟨item, hitem, hne, hp⟩ := mergeLoop_parties fuel hmem
        rw [absorb_snd] at hitem
        obtain ⟨src, -, rfl⟩ := mem_map.mp hitem
        by_cases hm : aclitem_match targ src = true
        · simp [hm] at hne
        · rw [if_neg hm] at hp
          exact hm ((aclitem_match_iff _ _).mpr hp.symm)

/-- The rights with the new owner in the place of the old one. -/
theorem has_substItem (acl : List AclItem) (o n e g b : ℕ) :
    Has (acl.map (substItem o n)) e g b ↔
      ∃ e₀ g₀, substOwner o n e₀ = e ∧ substOwner o n g₀ = g ∧ Has acl e₀ g₀ b := by
  constructor
  · rintro ⟨item, hmem, rfl, rfl, hb⟩
    obtain ⟨src, hsrc, rfl⟩ := mem_map.mp hmem
    exact ⟨_, _, rfl, rfl, src, hsrc, rfl, rfl, hb⟩
  · rintro ⟨_, _, rfl, rfl, src, hsrc, rfl, rfl, hb⟩
    exact ⟨substItem o n src, mem_map_of_mem hsrc, rfl, rfl, hb⟩

/-- **A new owner takes the place of the old one.** -/
theorem aclnewowner_has (acl : List AclItem) (o n e g b : ℕ) :
    Has (aclnewowner acl o n) e g b ↔
      ∃ e₀ g₀, substOwner o n e₀ = e ∧ substOwner o n g₀ = g ∧ Has acl e₀ g₀ b := by
  rw [← has_substItem, aclnewowner]
  split
  · exact mergeLoop_has _ (Nat.le_refl _) e g b
  · exact Iff.rfl

/-- Roles other than the new owner stay apart. -/
theorem substOwner_inj {o n x y : ℕ} (hx : x = o ∨ x ≠ n) (hy : y = o ∨ y ≠ n)
    (h : substOwner o n x = substOwner o n y) : x = y := by
  unfold substOwner at h
  split at h <;> split at h <;> omega

/-- **No two items share grantee and grantor under a new owner.** -/
theorem aclnewowner_distinct (hd : Distinct acl) (o n : ℕ) : Distinct (aclnewowner acl o n) := by
  rw [aclnewowner]
  split
  · exact mergeLoop_distinct _ _
  · rename_i hpresent
    have hrole : ∀ item ∈ acl, (item.ai_grantor = o ∨ item.ai_grantor ≠ n) ∧
        (item.ai_grantee = o ∨ item.ai_grantee ≠ n) := by
      intro item hmem
      rw [Bool.not_eq_true, any_eq_false] at hpresent
      have := hpresent item hmem
      simp only [Bool.or_eq_true, Bool.and_eq_true, bne_iff_ne, beq_iff_eq] at this
      omega
    rw [Distinct, map_map]
    refine (nodup_map_iff_inj_on (List.Nodup.of_map _ hd)).mpr fun a ha b hb hab => ?_
    obtain ⟨he, hg⟩ := Prod.mk.inj hab
    refine inj_on_of_nodup_map hd ha hb (Prod.ext ?_ ?_)
    · exact substOwner_inj (hrole a ha).2 (hrole b hb).2 he
    · exact substOwner_inj (hrole a ha).1 (hrole b hb).1 hg

end FdPostgres.Acl
