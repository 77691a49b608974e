import FdPostgres.Lib.RankedGraph
import FdPostgres.Acl.Rights

/-!
# Revoked Grant Options

For each privilege, the grant options of an ACL are the edges of a graph on the roles, from grantor
to grantee. A right is traceable if its grantor can be reached from the owner. When grant options
are removed, `recursive_revoke` removes what was given with them, role by role; until it is done,
there are roles that have given a privilege and no longer have its grant option.

* `Chain`, `Dangling`: the chains of grant options, and the roles without grant options.
* `revokeLoop_spec`: **the loops of `recursive_revoke` end, leave no dangling role behind, and
  remove nothing that has a chain.**
* `check_circularity_spec`: **`check_circularity` rejects grant options that the grantor has only
  through the grantee.**
-/

namespace FdPostgres.Acl

open Relation RankedGraph Nat List

/-! ### Chains -/

/-- The grantor has given the grant option for a privilege to the grantee. -/
def Edge (acl : List AclItem) (k g e : ℕ) : Prop := Has acl e g (k + 16)

/-- There is a chain of items with grant option for a privilege from the owner to a role. -/
def Chain (owner : ℕ) (acl : List AclItem) (k x : ℕ) : Prop := ReflTransGen (Edge acl k) owner x

/-- A role has been given the grant option for a privilege. -/
def HoldsOption (acl : List AclItem) (k x : ℕ) : Prop := ∃ g, Edge acl k g x

/-- An ACL as the commands leave it. -/
structure WellFormed (acl : List AclItem) : Prop where
  /-- No two items share grantee and grantor. -/
  distinct : Distinct acl
  /-- A grant option stands next to its privilege. -/
  priv : ∀ e g k, Has acl e g (k + 16) → Has acl e g k
  /-- There are no grant options for `PUBLIC`. -/
  noPublic : ∀ k, ¬ HoldsOption acl k ACL_ID_PUBLIC

/-- A role has given a privilege and does not have its grant option. -/
structure Dangling (owner : ℕ) (acl : List AclItem) (x k : ℕ) : Prop where
  lt : k < 16
  not_owner : x ≠ owner
  not_held : ¬ HoldsOption acl k x
  gives : ∃ e, Has acl e x k

/-- No grant option leads back to where it came from, the owner apart. -/
def Ranked (owner : ℕ) (acl : List AclItem) : Prop :=
  ∀ k, HasRanks fun g e => Edge acl k g e ∧ e ≠ owner

/-- Rights have been removed that have no chain. -/
structure Prunes (owner : ℕ) (acl acl' : List AclItem) : Prop where
  sub : ∀ e g b, Has acl' e g b → Has acl e g b
  keeps : ∀ e g b, Has acl e g b → Chain owner acl (b % 16) g → Has acl' e g b

variable {owner : ℕ} {acl : List AclItem} {k x : ℕ} {acl' : List AclItem} {b e : ℕ}
  {mod_aip : AclItem} {R : BitVec 32} {pending : ℕ → ℕ → Prop}

/-- Who is at the end of a chain is the owner or has the grant option. -/
theorem Chain.holds (h : Chain owner acl k x) (hx : x ≠ owner) : HoldsOption acl k x := by
  rcases ReflTransGen.cases_tail h with h | ⟨g, -, hg⟩
  · exact absurd h hx
  · exact ⟨g, hg⟩

/-- Grant options are for 16 privileges. -/
theorem HoldsOption.lt (h : HoldsOption acl k x) : k < 16 := by
  obtain ⟨g, hg⟩ := h
  have := Has.lt hg
  omega

theorem Chain.mono (h : Chain owner acl k x) (hsub : ∀ e g, Edge acl k g e → Edge acl' k g e) :
    Chain owner acl' k x :=
  ReflTransGen.mono (fun g e hge => hsub e g hge) _ _ h

theorem Prunes.refl (owner : ℕ) (acl : List AclItem) : Prunes owner acl acl :=
  ⟨fun _ _ _ h => h, fun _ _ _ h _ => h⟩

/-- Chains stay. -/
theorem Prunes.chain (h : Prunes owner acl acl') (hk : k < 16) (hc : Chain owner acl k x) :
    Chain owner acl' k x := by
  induction hc with
  | refl => exact ReflTransGen.refl
  | tail hg hge ih =>
    refine ih.tail (h.keeps _ _ _ hge ?_)
    rwa [add_mod_right, mod_eq_of_lt hk]

theorem Prunes.trans {acl'' : List AclItem} (h : Prunes owner acl acl')
    (h' : Prunes owner acl' acl'') : Prunes owner acl acl'' where
  sub e g b hb := h.sub e g b (h'.sub e g b hb)
  keeps e g b hb hc := h'.keeps e g b (h.keeps e g b hb hc) (h.chain (mod_lt _ (by omega)) hc)

theorem Ranked.mono (h : Ranked owner acl) (hsub : ∀ e g b, Has acl' e g b → Has acl e g b) :
    Ranked owner acl' :=
  fun k => (h k).mono fun _ _ hge => ⟨hsub _ _ _ hge.1, hge.2⟩

/-- **If nobody dangles and no grant option leads back, who has a grant option has a chain.** -/
theorem chain_of_holds (hw : WellFormed acl) (hr : Ranked owner acl)
    (hd : ∀ x k, ¬ Dangling owner acl x k) (hx : HoldsOption acl k x) : Chain owner acl k x := by
  refine reach_of_supported (hr k) (S := fun y => y = owner ∨ HoldsOption acl k y)
    (fun y hy => ?_) (.inr hx)
  refine hy.imp_right fun hy => ?_
  obtain ⟨g, hg⟩ := hy
  refine ⟨g, ?_, hg⟩
  by_contra hnot
  obtain ⟨hown, hheld⟩ := not_or.mp hnot
  exact hd g k ⟨HoldsOption.lt ⟨g, hg⟩, hown, hheld, y, hw.priv _ _ _ hg⟩

/-- Then every right has a chain. -/
theorem chain_of_has (hw : WellFormed acl) (hr : Ranked owner acl)
    (hd : ∀ x k, ¬ Dangling owner acl x k) {g : ℕ} (hb : Has acl e g b) :
    Chain owner acl (b % 16) g := by
  have hlt := hb.lt
  have hpriv : Has acl e g (b % 16) := by
    rcases lt_or_ge b 16 with h | h
    · rwa [mod_eq_of_lt h]
    · obtain ⟨k, rfl⟩ : ∃ k, b = k + 16 := ⟨b - 16, by omega⟩
      rw [add_mod_right, mod_eq_of_lt (by omega)]
      exact hw.priv _ _ _ hb
  by_cases hown : g = owner
  · rw [hown]
    exact ReflTransGen.refl
  by_cases hheld : HoldsOption acl (b % 16) g
  · exact chain_of_holds hw hr hd hheld
  · exact absurd ⟨mod_lt _ (by omega), hown, hheld, e, hpriv⟩ (hd g (b % 16))

/-! ### What a removal leaves behind -/

/-- The rights of an item. -/
theorem has_item (hd : Distinct acl) {item : AclItem} (hmem : item ∈ acl) :
    Has acl item.ai_grantee item.ai_grantor b ↔ item.ai_privs.getLsbD b = true := by
  constructor
  · rintro ⟨i, hi, he, hg, hb⟩
    have : i = item := inj_on_of_nodup_map hd hi hmem (Prod.ext he hg)
    rwa [← this]
  · intro hb
    exact ⟨item, hmem, rfl, rfl, hb⟩

/-- A removal takes grant options along with their privileges. -/
def Covers (acl : List AclItem) (mod_aip : AclItem) : Prop :=
  ∀ k, Has acl mod_aip.ai_grantee mod_aip.ai_grantor (k + 16) →
    mod_aip.ai_privs.getLsbD k = true → mod_aip.ai_privs.getLsbD (k + 16) = true

/-- The ACL is well formed after such a removal. -/
theorem WellFormed.del (hw : WellFormed acl) (hcov : Covers acl mod_aip) :
    WellFormed (changeItem mod_aip .DEL acl).1 where
  distinct := changeItem_distinct mod_aip .DEL hw.distinct
  priv e g k hb := by
    rw [changeItem_del_has mod_aip hw.distinct] at hb ⊢
    refine ⟨hw.priv e g k hb.1, fun h => hb.2 ⟨h.1, ?_⟩⟩
    obtain ⟨rfl, rfl⟩ := Prod.mk.inj h.1
    exact hcov k hb.1 h.2
  noPublic k := by
    rintro ⟨g, hg⟩
    exact hw.noPublic k ⟨g, ((changeItem_del_has mod_aip hw.distinct _ _ _).mp hg).1⟩

/-- Who dangles after a removal dangled before or has lost a grant option. -/
theorem dangling_del (hd : Distinct acl) (h : Dangling owner (changeItem mod_aip .DEL acl).1 x k) :
    Dangling owner acl x k ∨ x = mod_aip.ai_grantee ∧
      (lostOptions mod_aip .DEL (changeItem mod_aip .DEL acl).2).getLsbD k = true := by
  obtain ⟨hk, hown, hheld, e, he⟩ := h
  by_cases hold : HoldsOption acl k x
  · obtain ⟨g, hg⟩ := hold
    have hgone : (x, g) = mod_aip.parties ∧ mod_aip.ai_privs.getLsbD (k + 16) = true := by
      by_contra hnot
      exact hheld ⟨g, (changeItem_del_has mod_aip hd _ _ _).mpr ⟨hg, hnot⟩⟩
    obtain ⟨rfl, rfl⟩ := Prod.mk.inj hgone.1
    refine .inr ⟨rfl, ?_⟩
    rw [lostOptions_del, (changeItem_old mod_aip .DEL hd (k + 16)).mpr hg, hgone.2, Bool.and_true]
  · exact .inl ⟨hk, hown, hold, e, ((changeItem_del_has mod_aip hd _ _ _).mp he).1⟩

/-- The grant options that `recursive_revoke` finds to be gone. -/
theorem stillHas_getLsbD (owner : ℕ) (hw : WellFormed acl) (e : ℕ)
    (hR : ∀ k, R.getLsbD k = true → k < 16) (k : ℕ) :
    (R &&& ~~~ACL_OPTION_TO_PRIVS (aclmask acl e owner (ACL_GRANT_OPTION_FOR R)
        .ACLMASK_ALL)).getLsbD k = true ↔
      R.getLsbD k = true ∧ ¬ (e = owner ∨ HoldsOption acl k e) := by
  have hmask : ∀ b, (ACL_GRANT_OPTION_FOR R).getLsbD b = true → 16 ≤ b := by
    intro b hb
    by_contra hlt
    rw [getLsbD_optionFor_low R (by omega)] at hb
    cases hb
  have hdirect : (∃ item ∈ acl, isDirect e item = true ∧ item.ai_privs.getLsbD (k + 16) = true) ↔
      HoldsOption acl k e := by
    constructor
    · rintro ⟨item, hmem, hdir, hb⟩
      have hhas : Has acl item.ai_grantee item.ai_grantor (k + 16) := ⟨item, hmem, rfl, rfl, hb⟩
      rw [isDirect, Bool.or_eq_true, beq_iff_eq, beq_iff_eq] at hdir
      rcases hdir with hpub | rfl
      · exact absurd ⟨_, hpub ▸ hhas⟩ (hw.noPublic k)
      · exact ⟨_, hhas⟩
    · rintro ⟨g, item, hmem, rfl, -, hb⟩
      exact ⟨item, hmem, by simp [isDirect], hb⟩
  rw [BitVec.getLsbD_and, BitVec.getLsbD_not, getLsbD_option, Bool.and_eq_true, Bool.and_eq_true,
    Bool.not_eq_true', ← Bool.not_eq_true, aclmask_getLsbD acl e owner _ hmask, getLsbD_optionFor,
    hdirect]
  constructor
  · rintro ⟨hb, -, hnot⟩
    exact ⟨hb, fun h => hnot ⟨by rw [hb, decide_eq_true (hR k hb), Bool.and_true], h⟩⟩
  · rintro ⟨hb, hnot⟩
    have hlt := hR k hb
    exact ⟨hb, decide_eq_true (by omega), fun h => hnot h.2⟩

/-! ### The loops -/

/-- What the revocation of grant options does: only what is still to be done dangles. -/
structure Settles (owner : ℕ) (pending : ℕ → ℕ → Prop) (acl acl' : List AclItem) : Prop where
  wellFormed : WellFormed acl'
  prunes : Prunes owner acl acl'
  size : aclSize acl' ≤ aclSize acl
  dangling : ∀ x k, Dangling owner acl' x k → pending x k

/-- The outcome is an ACL from which the grant options have been revoked. -/
def Yields (owner : ℕ) (pending : ℕ → ℕ → Prop) (acl : List AclItem) (out : Outcome) : Prop :=
  ∃ acl', out = some (.ok acl') ∧ Settles owner pending acl acl'

/-- Nothing is to be done if only others dangle. -/
theorem Yields.refl (hw : WellFormed acl) (hp : ∀ x k, Dangling owner acl x k → pending x k) :
    Yields owner pending acl (some (.ok acl)) :=
  ⟨acl, rfl, hw, Prunes.refl owner acl, le_refl _, hp⟩

variable {Q : Outcome → Prop}

/-- `recursive_revoke` does its work if its loop does. -/
theorem revokeWith_spec (loop : List AclItem → ℕ → BitVec 32 → Outcome) (hw : WellFormed acl)
    {L : BitVec 32} (hL : ∀ k, L.getLsbD k = true → k < 16)
    (hp : ∀ x k, Dangling owner acl x k → pending x k ∨ x = e ∧ L.getLsbD k = true)
    (hdone : (∀ x k, Dangling owner acl x k → pending x k) → Q (some (.ok acl)))
    (hloop : ∀ R : BitVec 32, e ≠ owner →
      (∀ k, R.getLsbD k = true → k < 16 ∧ ¬ HoldsOption acl k e) →
      (∀ x k, Dangling owner acl x k → pending x k ∨ x = e ∧ R.getLsbD k = true) →
      Q (loop acl e R)) : Q (revokeWith loop owner acl e L) := by
  rw [revokeWith]
  by_cases hown : e = owner
  · rw [if_pos hown]
    exact hdone fun x k hx => (hp x k hx).resolve_right fun h => hx.not_owner (h.1.trans hown)
  rw [if_neg hown]
  dsimp only
  have hstill := stillHas_getLsbD owner hw e hL
  -- the grant options that the role still has do not dangle
  have hp' : ∀ x k, Dangling owner acl x k → pending x k ∨ x = e ∧
      (L &&& ~~~ACL_OPTION_TO_PRIVS (aclmask acl e owner (ACL_GRANT_OPTION_FOR L)
        .ACLMASK_ALL)).getLsbD k = true := by
    intro x k hx
    refine (hp x k hx).imp_right fun h => ⟨h.1, (hstill k).mpr ⟨h.2, ?_⟩⟩
    rintro (h' | h')
    · exact hown h'
    · exact hx.not_held (h.1 ▸ h')
  split
  · rename_i hz
    refine hdone fun x k hx => (hp' x k hx).resolve_right fun h => ?_
    rw [hz, BitVec.getLsbD_zero] at h
    cases h.2
  · refine hloop _ hown (fun k hk => ?_) hp'
    obtain ⟨hb, hnot⟩ := (hstill k).mp hk
    exact ⟨hL k hb, fun h => hnot (.inr h)⟩

/-- A removal with its consequences, if `recursive_revoke` does its work. -/
theorem updateWith_spec (revoke : List AclItem → ℕ → BitVec 32 → Outcome) (hw : WellFormed acl)
    (hp : ∀ x k, Dangling owner acl x k → pending x k)
    (hdone : (∀ x k, Dangling owner (changeItem mod_aip .DEL acl).1 x k → pending x k) →
      Q (some (.ok (changeItem mod_aip .DEL acl).1)))
    (hrevoke : ∀ L : BitVec 32, (∀ k, L.getLsbD k = true → k < 16) →
      (∀ x k, Dangling owner (changeItem mod_aip .DEL acl).1 x k →
        pending x k ∨ x = mod_aip.ai_grantee ∧ L.getLsbD k = true) →
      Q (revoke (changeItem mod_aip .DEL acl).1 mod_aip.ai_grantee L)) :
    Q (updateWith revoke acl mod_aip .DEL) := by
  have hdang : ∀ x k, Dangling owner (changeItem mod_aip .DEL acl).1 x k →
      pending x k ∨ x = mod_aip.ai_grantee ∧
        (lostOptions mod_aip .DEL (changeItem mod_aip .DEL acl).2).getLsbD k = true :=
    fun x k hx => (dangling_del hw.distinct hx).imp_left (hp x k)
  simp only [updateWith]
  split
  · refine hrevoke _ (fun k hk => ?_) hdang
    rw [lostOptions_del, Bool.and_eq_true] at hk
    have := BitVec.lt_of_getLsbD hk.1
    omega
  · rename_i hz
    refine hdone fun x k hx => (hdang x k hx).resolve_right fun h => ?_
    rw [not_ne_iff.mp hz, BitVec.getLsbD_zero] at h
    cases h.2

/-- The loop of `recursive_revoke` finds a role that dangles. -/
theorem not_dangling_of_find_none (hfind : acl.find? (isAbandoned x R) = none)
    (hbit : R.getLsbD k = true) : ¬ Dangling owner acl x k := by
  intro hx
  obtain ⟨e, item, hmem, rfl, rfl, hb⟩ := hx.gives
  have hno := find?_eq_none.mp hfind item hmem
  rw [isAbandoned, beq_self_eq_true, Bool.true_and, bne_iff_ne, not_not,
    BitVec.zero_iff_eq_false] at hno
  have hbit' := hno k
  rw [BitVec.getLsbD_and, getLsbD_privs, hb, hbit, decide_eq_true hx.lt] at hbit'
  cases hbit'

/-- A removal of what a role has given without the grant option removes nothing that has a
chain. -/
theorem prunes_abandoned (hd : Distinct acl) {r : ℕ} (hr : r ≠ owner)
    (hR : ∀ k, R.getLsbD k = true → k < 16 ∧ ¬ HoldsOption acl k r) :
    Prunes owner acl (changeItem ⟨e, r, rightsOf R R⟩ .DEL acl).1 where
  sub x g b hb := ((changeItem_del_has _ hd _ _ _).mp hb).1
  keeps x g b hb hc := by
    refine (changeItem_del_has _ hd _ _ _).mpr ⟨hb, ?_⟩
    rintro ⟨hp, hbit⟩
    obtain ⟨-, rfl⟩ := Prod.mk.inj hp
    rw [getLsbD_rightsOf R hb.lt] at hbit
    exact (hR _ hbit).2 (hc.holds hr)

/-- **The loops of `recursive_revoke` end, leave no dangling role behind, and remove nothing that
has a chain.** -/
theorem revokeLoop_spec (fuel : ℕ) :
    ∀ {acl : List AclItem} {r : ℕ} {R : BitVec 32} {pending : ℕ → ℕ → Prop}, WellFormed acl →
      aclSize acl < fuel → r ≠ owner → (∀ k, R.getLsbD k = true → k < 16 ∧ ¬ HoldsOption acl k r) →
      (∀ x k, Dangling owner acl x k → pending x k ∨ x = r ∧ R.getLsbD k = true) →
      Yields owner pending acl (revokeLoop owner .DROP_CASCADE fuel acl r R) := by
  induction fuel with
  | zero =>
    intro acl r R pending hw hsize
    exact absurd hsize (not_lt_zero _)
  | succ fuel ih =>
    intro acl r R pending hw hsize hr hR hp
    rw [revokeLoop]
    cases hfind : acl.find? (isAbandoned r R) with
    | none =>
      refine Yields.refl hw fun x k hx => (hp x k hx).resolve_right ?_
      rintro ⟨rfl, hbit⟩
      exact not_dangling_of_find_none hfind hbit hx
    | some item =>
      dsimp only
      have hmem := mem_of_find?_eq_some hfind
      obtain ⟨hgtor, k, hpriv, hbit⟩ : item.ai_grantor = r ∧
          ∃ k, item.ai_privs.getLsbD k = true ∧ R.getLsbD k = true := by
        have hab := find?_some hfind
        rw [isAbandoned, Bool.and_eq_true, beq_iff_eq, bne_iff_ne, ne_eq,
          BitVec.zero_iff_eq_false, not_forall] at hab
        obtain ⟨hg, k, hk⟩ := hab
        rw [Bool.not_eq_false, BitVec.getLsbD_and, getLsbD_privs, Bool.and_eq_true,
          Bool.and_eq_true] at hk
        exact ⟨hg, k, hk.1.1, hk.2⟩
      set mod_aip : AclItem := ⟨item.ai_grantee, r, rightsOf R R⟩ with hmod
      have hcov : Covers acl mod_aip := by
        intro k hk hb
        have hlt := hk.lt
        rw [hmod, getLsbD_rightsOf R (by omega)] at hb ⊢
        rwa [add_mod_right]
      have hlt : aclSize (changeItem mod_aip .DEL acl).1 < aclSize acl := by
        refine aclSize_changeItem_lt mod_aip hw.distinct (b := k)
          ⟨item, hmem, rfl, hgtor, hpriv⟩ ?_
        have := (hR k hbit).1
        rw [hmod, getLsbD_rightsOf R (by omega), mod_eq_of_lt this]
        exact hbit
      have hw' := hw.del hcov
      have hprun : Prunes owner acl (changeItem mod_aip .DEL acl).1 :=
        prunes_abandoned hw.distinct hr hR
      -- what the role has given is still to be looked at while the loops run below
      obtain ⟨acl₁, hrun, hset⟩ : Yields owner _ (changeItem mod_aip .DEL acl).1
          (updateWith (revokeWith (revokeLoop owner .DROP_CASCADE fuel) owner) acl mod_aip .DEL) :=
        updateWith_spec _ hw hp (Yields.refl hw') fun L hL hpL =>
          revokeWith_spec _ hw' hL hpL (Yields.refl hw') fun R' he hR' hp' =>
            ih hw' (by omega) he hR' hp'
      rw [hrun]
      have hheld : ∀ k, R.getLsbD k = true → k < 16 ∧ ¬ HoldsOption acl₁ k r := by
        intro k hk
        refine ⟨(hR k hk).1, ?_⟩
        rintro ⟨g, hg⟩
        exact (hR k hk).2 ⟨g, hprun.sub _ _ _ (hset.prunes.sub _ _ _ hg)⟩
      have hsize₁ := hset.size
      obtain ⟨acl₂, hrun₂, hset₂⟩ := ih hset.wellFormed (by omega) hr hheld hset.dangling
      have hsize₂ := hset₂.size
      exact ⟨acl₂, hrun₂, hset₂.wellFormed, (hprun.trans hset.prunes).trans hset₂.prunes,
        by omega, hset₂.dangling⟩

/-- **A removal with `CASCADE` ends and leaves no dangling role behind.** -/
theorem update_cascade_spec (hw : WellFormed acl) (hd : ∀ x k, ¬ Dangling owner acl x k)
    (hcov : Covers acl mod_aip) :
    Yields owner (fun _ _ => False) (changeItem mod_aip .DEL acl).1
      (updateWith (recursive_revoke owner .DROP_CASCADE) acl mod_aip .DEL) := by
  have hw' := hw.del hcov
  refine updateWith_spec _ hw hd (Yields.refl hw') fun L hL hpL => ?_
  exact revokeWith_spec _ hw' hL hpL (Yields.refl hw') fun R he hR hp =>
    revokeLoop_spec _ hw' (lt_succ_self _) he hR hp

/-- The removal was refused, or it left no role dangling. -/
def Restricted (owner : ℕ) (acl : List AclItem) (out : Outcome) : Prop :=
  out = some (.error .dependentPrivileges) ∨ out = some (.ok acl) ∧ ∀ x k, ¬ Dangling owner acl x k

/-- **A removal with `RESTRICT` ends with an error or removes the bits of the change; then no role
dangles.** -/
theorem update_restrict_spec (hw : WellFormed acl) (hd : ∀ x k, ¬ Dangling owner acl x k)
    (hcov : Covers acl mod_aip) : Restricted owner (changeItem mod_aip .DEL acl).1
      (updateWith (recursive_revoke owner .DROP_RESTRICT) acl mod_aip .DEL) := by
  refine updateWith_spec _ hw hd (fun h => .inr ⟨rfl, h⟩) ?_
  intro L hL hpL
  refine revokeWith_spec _ (hw.del hcov) hL hpL
    (fun h => .inr ⟨rfl, h⟩) fun R he hR hp => ?_
  rw [revokeLoop]
  cases hfind : (changeItem mod_aip .DEL acl).1.find? (isAbandoned mod_aip.ai_grantee R) with
  | some item => exact .inl rfl
  | none =>
    refine .inr ⟨rfl, fun x k hx => (hp x k hx).elim id ?_⟩
    rintro ⟨rfl, hbit⟩
    exact not_dangling_of_find_none hfind hbit hx

/-! ### The check for circularity -/

/-- The ACL without the items of a grantee. -/
def without (e : ℕ) (acl : List AclItem) : List AclItem :=
  acl.filter fun item => item.ai_grantee != e

theorem has_without {g : ℕ} : Has (without e acl) x g b ↔ x ≠ e ∧ Has acl x g b := by
  constructor
  · rintro ⟨item, hmem, rfl, rfl, hb⟩
    obtain ⟨hmem, hne⟩ := mem_filter.mp hmem
    exact ⟨by simpa using hne, item, hmem, rfl, rfl, hb⟩
  · rintro ⟨hne, item, hmem, rfl, rfl, hb⟩
    exact ⟨item, mem_filter.mpr ⟨hmem, by simpa using hne⟩, rfl, rfl, hb⟩

/-- What has a chain without a grantee stays if what has a chain stays. -/
theorem Prunes.without (h : Prunes owner acl acl') (e : ℕ) :
    Prunes owner (without e acl) (without e acl') where
  sub x g b hb := by
    rw [has_without] at hb ⊢
    exact ⟨hb.1, h.sub x g b hb.2⟩
  keeps x g b hb hc := by
    rw [has_without] at hb ⊢
    exact ⟨hb.1, h.keeps x g b hb.2 (hc.mono fun _ _ hge => (has_without.mp hge).2)⟩

/-- The removal of an item of the grantee changes nothing without the grantee. -/
theorem prunes_without_del (hd : Distinct acl) (mod_aip : AclItem) :
    Prunes owner (without mod_aip.ai_grantee acl)
      (without mod_aip.ai_grantee (changeItem mod_aip .DEL acl).1) where
  sub x g b hb := by
    rw [has_without] at hb ⊢
    exact ⟨hb.1, ((changeItem_del_has mod_aip hd x g b).mp hb.2).1⟩
  keeps x g b hb _ := by
    rw [has_without] at hb ⊢
    refine ⟨hb.1, (changeItem_del_has mod_aip hd x g b).mpr ⟨hb.2, fun h => hb.1 ?_⟩⟩
    exact (Prod.mk.inj h.1).1

/-- **The loop of `check_circularity` ends, and then the grantee has no grant option, and nothing
has been removed that has a chain without the grantee.** -/
theorem zapLoop_spec (e : ℕ) (fuel : ℕ) :
    ∀ {acl : List AclItem}, WellFormed acl → aclSize acl < fuel →
      (∀ x k, ¬ Dangling owner acl x k) →
      ∃ acl', zapLoop owner e fuel acl = some (.ok acl') ∧ WellFormed acl' ∧
        (∀ x k, ¬ Dangling owner acl' x k) ∧ (∀ k, ¬ HoldsOption acl' k e) ∧
        Prunes owner (without e acl) (without e acl') := by
  induction fuel with
  | zero =>
    intro acl hw hsize
    exact absurd hsize (not_lt_zero _)
  | succ fuel ih =>
    intro acl hw hsize hd
    rw [zapLoop]
    cases hfind : acl.find? (fun item =>
        item.ai_grantee == e && ACLITEM_GET_GOPTIONS item != 0#32) with
    | none =>
      refine ⟨acl, rfl, hw, hd, fun k => ?_, Prunes.refl _ _⟩
      rintro ⟨g, item, hmem, rfl, -, hb⟩
      have hno := find?_eq_none.mp hfind item hmem
      rw [beq_self_eq_true, Bool.true_and, bne_iff_ne, not_not, BitVec.zero_iff_eq_false] at hno
      have hbit := hno k
      rw [ACLITEM_GET_GOPTIONS, getLsbD_option, hb] at hbit
      cases hbit.symm
    | some item =>
      dsimp only
      have hmem := mem_of_find?_eq_some hfind
      obtain ⟨rfl, k, hk⟩ : item.ai_grantee = e ∧ ∃ k, item.ai_privs.getLsbD (k + 16) = true := by
        have hab := find?_some hfind
        rw [Bool.and_eq_true, beq_iff_eq, bne_iff_ne, ne_eq, BitVec.zero_iff_eq_false,
          not_forall] at hab
        obtain ⟨he, k, hk⟩ := hab
        rw [Bool.not_eq_false, ACLITEM_GET_GOPTIONS, getLsbD_option] at hk
        exact ⟨he, k, hk⟩
      have hlt := aclSize_changeItem_lt item hw.distinct
        ((has_item hw.distinct hmem).mpr hk) hk
      obtain ⟨acl₁, hrun, hset⟩ := update_cascade_spec hw hd
        fun k hk _ => (has_item hw.distinct hmem).mp hk
      rw [hrun]
      have hsize₁ := hset.size
      obtain ⟨acl', hrun', hw', hd', hnone, hprun⟩ := ih hset.wellFormed (by omega) hset.dangling
      exact ⟨acl', hrun', hw', hd', hnone, ((prunes_without_del hw.distinct item).trans
        (hset.prunes.without _)).trans hprun⟩

/-- The grantor has the grant options of the change without the grantee. -/
def Independent (owner : ℕ) (acl : List AclItem) (mod_aip : AclItem) : Prop :=
  ∀ k, mod_aip.ai_privs.getLsbD (k + 16) = true →
    Chain owner (without mod_aip.ai_grantee acl) k mod_aip.ai_grantor

/-- **`check_circularity` rejects grant options that the grantor has only through the grantee.** -/
theorem check_circularity_spec (hw : WellFormed acl) (hr : Ranked owner acl)
    (hd : ∀ x k, ¬ Dangling owner acl x k) (mod_aip : AclItem) :
    Independent owner acl mod_aip ∧ check_circularity acl mod_aip owner = some (.ok ()) ∨
      ¬ Independent owner acl mod_aip ∧
        check_circularity acl mod_aip owner = some (.error .grantedBack) := by
  rw [check_circularity]
  by_cases hown : mod_aip.ai_grantor = owner
  · rw [if_pos hown]
    refine .inl ⟨fun k _ => ?_, rfl⟩
    rw [hown]
    exact ReflTransGen.refl
  rw [if_neg hown]
  obtain ⟨acl', hrun, hw', hd', hnone, hprun⟩ :=
    zapLoop_spec mod_aip.ai_grantee (aclSize acl + 1) hw (lt_succ_self _) hd
  rw [hrun]
  have hedge : ∀ k x g, Edge acl' k g x → Edge (without mod_aip.ai_grantee acl) k g x := by
    intro k x g hge
    exact hprun.sub _ _ _ (has_without.mpr ⟨fun he => hnone k ⟨g, he ▸ hge⟩, hge⟩)
  have hr' : Ranked owner acl' := fun k => (hr k).mono fun g x hge =>
    ⟨(has_without.mp (hedge k x g hge.1)).2, hge.2⟩
  -- the grantor still has what it has a chain for without the grantee
  have hiff : ∀ k, k < 16 → (HoldsOption acl' k mod_aip.ai_grantor ↔
      Chain owner (without mod_aip.ai_grantee acl) k mod_aip.ai_grantor) := by
    intro k hk
    constructor
    · intro h
      exact (chain_of_holds hw' hr' hd' h).mono (hedge k)
    · intro h
      obtain ⟨g, hg⟩ := (hprun.chain hk h).holds hown
      exact ⟨g, (has_without.mp hg).2⟩
  have hgopt : ∀ k, (ACLITEM_GET_GOPTIONS mod_aip).getLsbD k = true → k < 16 := by
    intro k hk
    rw [ACLITEM_GET_GOPTIONS, getLsbD_option] at hk
    have := BitVec.lt_of_getLsbD hk
    omega
  have hstill := stillHas_getLsbD owner hw' mod_aip.ai_grantor hgopt
  by_cases hind : Independent owner acl mod_aip
  · refine .inl ⟨hind, if_neg (not_not.mpr (BitVec.zero_iff_eq_false.mpr fun k => ?_))⟩
    rw [← Bool.not_eq_true, hstill k]
    rintro ⟨hk, hnot⟩
    have hk' := hgopt k hk
    rw [ACLITEM_GET_GOPTIONS, getLsbD_option] at hk
    exact hnot (.inr ((hiff k hk').mpr (hind k hk)))
  · refine .inr ⟨hind, if_pos fun hz => hind fun k hk => ?_⟩
    have hbit : (ACLITEM_GET_GOPTIONS mod_aip).getLsbD k = true := by
      rw [ACLITEM_GET_GOPTIONS, getLsbD_option]
      exact hk
    have hno := BitVec.zero_iff_eq_false.mp hz k
    rw [← Bool.not_eq_true, hstill k] at hno
    by_contra hchain
    exact hno ⟨hbit, fun h => h.elim hown fun h => hchain ((hiff k (hgopt k hbit)).mp h)⟩

end FdPostgres.Acl
