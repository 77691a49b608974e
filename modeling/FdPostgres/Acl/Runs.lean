import FdPostgres.Acl.Revoke

/-!
# Grants, Revokes and Owner Changes

The owner of an object and roles with grant options grant and revoke privileges, and the owner
changes. `check_circularity` only asks whether the grantor has the grant options without the
grantee: a grantor that has them from the grantee as well may grant them back, and then the two
support each other when the owner revokes what it has given to them.

* `execute`: a command.
* `SelfSupporting`: a grant of a grant option to a role from which the grantor has it.
* `acl_traceable`: **while no such grant is accepted, every right has a chain from the owner, a
  revoke with `RESTRICT` removes only what it names, and one with `CASCADE` also exactly what then
  has no chain.**
* `acl_untraceable`: two roles that support each other.
-/

namespace FdPostgres.Acl

open Relation RankedGraph Option

/-- The ACL of an object, and its owner. -/
structure State where
  acl : List AclItem
  owner : ℕ
  deriving Repr, DecidableEq

/-- A command on the ACL. -/
inductive Command where
  | grant (mod_aip : AclItem) (behavior : DropBehavior)
  | revoke (mod_aip : AclItem) (behavior : DropBehavior)
  | newowner (newOwnerId : ℕ)
  deriving Repr, DecidableEq

/-- The ACL of a state is replaced. -/
def State.setAcl (s : State) : Except AclError (List AclItem) → Except AclError State
  | .ok acl => .ok { s with acl := acl }
  | .error e => .error e

/-- A command is executed: the new ACL and owner, or an error that leaves both. -/
def execute (s : State) : Command → Option (Except AclError State)
  | .grant mod_aip behavior => (aclupdate s.acl mod_aip .ADD s.owner behavior).map s.setAcl
  | .revoke mod_aip behavior => (aclupdate s.acl mod_aip .DEL s.owner behavior).map s.setAcl
  | .newowner newOwnerId => some (.ok ⟨aclnewowner s.acl s.owner newOwnerId, newOwnerId⟩)

/-- The commands that can be issued. As `merge_acl_with_grant` makes the items, a grant option is
granted with its privilege, and a privilege is revoked with its grant option. -/
def Allowed (s : State) : Command → Prop
  | .grant mod_aip _ =>
      (mod_aip.ai_grantor = s.owner ∨ ∀ k < 16, mod_aip.ai_privs.getLsbD k = true →
        HoldsOption s.acl k mod_aip.ai_grantor) ∧
      (∀ k, mod_aip.ai_privs.getLsbD (k + 16) = true → mod_aip.ai_privs.getLsbD k = true) ∧
      (mod_aip.ai_grantee = ACL_ID_PUBLIC → ∀ k, mod_aip.ai_privs.getLsbD (k + 16) = false)
  | .revoke mod_aip _ =>
      ∀ k < 16, mod_aip.ai_privs.getLsbD k = true → mod_aip.ai_privs.getLsbD (k + 16) = true
  | .newowner newOwnerId => newOwnerId ≠ ACL_ID_PUBLIC

/-- An ACL granted by the owner. -/
structure GrantedByOwner (s : State) : Prop where
  grantor : ∀ item ∈ s.acl, item.ai_grantor = s.owner
  wellFormed : WellFormed s.acl

/-- The states that commands that meet a condition lead to from an ACL granted by the owner. -/
inductive Reachable (cond : State → Command → Prop) : State → Prop
  | start {s : State} (hs : GrantedByOwner s) : Reachable cond s
  | step {s s' : State} {c : Command} (h : Reachable cond s) (ha : Allowed s c) (hc : cond s c)
      (he : execute s c = some (.ok s')) : Reachable cond s'

/-- The grantor already has a granted option from the grantee, by a chain that does not come from
the owner. -/
def SelfSupporting (s : State) (mod_aip : AclItem) : Prop :=
  mod_aip.ai_grantor ≠ s.owner ∧ mod_aip.ai_grantee ≠ s.owner ∧
    ∃ k, mod_aip.ai_privs.getLsbD (k + 16) = true ∧
      ReflTransGen (fun g e => Edge s.acl k g e ∧ e ≠ s.owner) mod_aip.ai_grantee
        mod_aip.ai_grantor

/-- Who has a granted option from the grantee has one of the granted options from nobody else. -/
def SoleSupport (s : State) : Command → Prop
  | .grant mod_aip _ => SelfSupporting s mod_aip → ¬ Independent s.owner s.acl mod_aip
  | .revoke _ _ => True
  | .newowner _ => True

/-! ### The commands -/

/-- What holds between commands: rights are given by those who hold the option, and no chain of
grants leads back to where it came from. -/
structure Sound (s : State) : Prop where
  wellFormed : WellFormed s.acl
  ranked : Ranked s.owner s.acl
  supported : ∀ x k, ¬ Dangling s.owner s.acl x k

variable {s : State} {mod_aip : AclItem}

theorem GrantedByOwner.sound (h : GrantedByOwner s) : Sound s where
  wellFormed := h.wellFormed
  ranked k := by
    refine ⟨fun x => if x = s.owner then 0 else 1, fun g e hge => ?_⟩
    obtain ⟨⟨item, hmem, -, rfl, -⟩, he⟩ := hge
    dsimp only
    rw [if_pos (h.grantor item hmem), if_neg he]
    omega
  supported x k hx := by
    obtain ⟨e, item, hmem, -, rfl, -⟩ := hx.gives
    exact hx.not_owner (h.grantor item hmem)

/-- **A grant is rejected if the grantor has a granted option only through the grantee; otherwise it
adds its bits.** -/
theorem execute_grant (hs : Sound s) (mod_aip : AclItem) (behavior : DropBehavior) :
    Independent s.owner s.acl mod_aip ∧ execute s (.grant mod_aip behavior) =
        some (.ok { s with acl := (changeItem mod_aip .ADD s.acl).1 }) ∨
      ¬ Independent s.owner s.acl mod_aip ∧ execute s (.grant mod_aip behavior) =
        some (.error .grantedBack) := by
  have hupd : updateWith (recursive_revoke s.owner behavior) s.acl mod_aip .ADD =
      some (.ok (changeItem mod_aip .ADD s.acl).1) := by
    simp only [updateWith]
    rw [lostOptions_add, if_neg (by simp)]
  rw [execute, aclupdate]
  by_cases hopt : ACLITEM_GET_GOPTIONS mod_aip = 0#32
  · rw [if_neg (by simp [hopt]), hupd]
    refine .inl ⟨fun k hk => ?_, rfl⟩
    have := BitVec.zero_iff_eq_false.mp hopt k
    rw [ACLITEM_GET_GOPTIONS, getLsbD_option, hk] at this
    cases this.symm
  · rw [if_pos ⟨by simp, hopt⟩]
    rcases check_circularity_spec hs.wellFormed hs.ranked hs.supported mod_aip with
      ⟨hind, hcheck⟩ | ⟨hind, hcheck⟩
    · rw [hcheck]
      rw [hupd]
      exact .inl ⟨hind, rfl⟩
    · rw [hcheck]
      exact .inr ⟨hind, rfl⟩

variable {behavior : DropBehavior}

/-- **An accepted grant keeps the ACL sound if it closes no cycle.** -/
theorem Sound.grant (hs : Sound s) (ha : Allowed s (.grant mod_aip behavior))
    (hself : ¬ SelfSupporting s mod_aip) :
    Sound { s with acl := (changeItem mod_aip .ADD s.acl).1 } := by
  obtain ⟨hgtor, hpriv, hpub⟩ := ha
  have hhas := changeItem_add_has mod_aip hs.wellFormed.distinct
  refine ⟨⟨changeItem_distinct _ _ hs.wellFormed.distinct, fun e g k hb => ?_, fun k => ?_⟩,
    fun k => ?_, fun x k hx => ?_⟩
  · rw [hhas] at hb ⊢
    exact hb.imp (hs.wellFormed.priv e g k) fun h => ⟨h.1, hpriv k h.2⟩
  · rintro ⟨g, hg⟩
    rcases (hhas _ _ _).mp hg with hg | ⟨hp, hb⟩
    · exact hs.wellFormed.noPublic k ⟨g, hg⟩
    · rw [hpub (Prod.mk.inj hp).1.symm k] at hb
      cases hb
  · by_cases hedge : mod_aip.ai_privs.getLsbD (k + 16) = true ∧ mod_aip.ai_grantee ≠ s.owner
    · refine (hs.ranked k).add (g := mod_aip.ai_grantor) (e := mod_aip.ai_grantee)
        (fun hback => ?_) fun g e hge => ?_
      · by_cases hown : mod_aip.ai_grantor = s.owner
        · -- no edge that has a rank leads to the owner
          rcases ReflTransGen.cases_tail hback with h | ⟨g, -, hg⟩
          · exact hedge.2 (h.symm.trans hown)
          · exact hg.2 hown
        · exact hself ⟨hown, hedge.2, k, hedge.1, hback⟩
      · rcases (hhas _ _ _).mp hge.1 with h | ⟨hp, -⟩
        · exact .inl ⟨h, hge.2⟩
        · exact .inr ⟨(Prod.mk.inj hp).2, (Prod.mk.inj hp).1⟩
    · refine (hs.ranked k).mono fun g e hge => ⟨?_, hge.2⟩
      rcases (hhas _ _ _).mp hge.1 with h | ⟨hp, hb⟩
      · exact h
      · exact absurd ⟨hb, (Prod.mk.inj hp).1 ▸ hge.2⟩ hedge
  · obtain ⟨hk, hown, hheld, e, he⟩ := hx
    have hheld' : ¬ HoldsOption s.acl k x := fun ⟨g, hg⟩ => hheld ⟨g, (hhas _ _ _).mpr (.inl hg)⟩
    rcases (hhas _ _ _).mp he with he | ⟨hp, hb⟩
    · exact hs.supported x k ⟨hk, hown, hheld', e, he⟩
    · obtain ⟨-, rfl⟩ := Prod.mk.inj hp
      rcases hgtor with h | h
      · exact hown h
      · exact hheld' (h k hk hb)

/-- A revoke takes grant options along with their privileges. -/
theorem Allowed.covers (ha : Allowed s (.revoke mod_aip behavior)) : Covers s.acl mod_aip := by
  intro k hb hk
  have := hb.lt
  exact ha k (by omega) hk

/-- **A revoke with `RESTRICT` ends with an error or removes the bits it names.** -/
theorem execute_restrict (hs : Sound s) (ha : Allowed s (.revoke mod_aip .DROP_RESTRICT)) :
    execute s (.revoke mod_aip .DROP_RESTRICT) = some (.error .dependentPrivileges) ∨
      execute s (.revoke mod_aip .DROP_RESTRICT) =
          some (.ok { s with acl := (changeItem mod_aip .DEL s.acl).1 }) ∧
        Sound { s with acl := (changeItem mod_aip .DEL s.acl).1 } := by
  rw [execute, aclupdate]
  rcases update_restrict_spec hs.wellFormed hs.supported ha.covers with h | ⟨h, hd⟩
  · rw [h]
    exact .inl rfl
  · rw [h]
    refine .inr ⟨rfl, hs.wellFormed.del ha.covers, ?_, hd⟩
    exact hs.ranked.mono fun e g b hb =>
      ((changeItem_del_has mod_aip hs.wellFormed.distinct e g b).mp hb).1

/-- **A revoke with `CASCADE` ends, and removes the bits it names and what then has no chain.** -/
theorem execute_cascade (hs : Sound s) (ha : Allowed s (.revoke mod_aip .DROP_CASCADE)) :
    ∃ acl', execute s (.revoke mod_aip .DROP_CASCADE) = some (.ok { s with acl := acl' }) ∧
      Sound { s with acl := acl' } ∧ Prunes s.owner (changeItem mod_aip .DEL s.acl).1 acl' := by
  rw [execute, aclupdate]
  obtain ⟨acl', h, hset⟩ := update_cascade_spec hs.wellFormed hs.supported ha.covers
  rw [h]
  refine ⟨acl', rfl, ⟨hset.wellFormed, ?_, hset.dangling⟩, hset.prunes⟩
  exact hs.ranked.mono fun e g b hb => ((changeItem_del_has mod_aip hs.wellFormed.distinct e g
    b).mp (hset.prunes.sub e g b hb)).1

/-- **The ACL is sound under a new owner.** -/
theorem Sound.newowner (hs : Sound s) {n : ℕ} (hn : n ≠ ACL_ID_PUBLIC) :
    Sound ⟨aclnewowner s.acl s.owner n, n⟩ := by
  have hhas := aclnewowner_has s.acl s.owner n
  refine ⟨⟨aclnewowner_distinct hs.wellFormed.distinct _ _, fun e g k hb => ?_, fun k => ?_⟩,
    fun k => ?_, fun x k hx => ?_⟩
  · rw [hhas] at hb ⊢
    obtain ⟨e₀, g₀, he, hg, hb⟩ := hb
    exact ⟨e₀, g₀, he, hg, hs.wellFormed.priv _ _ _ hb⟩
  · rintro ⟨g, hg⟩
    obtain ⟨e₀, g₀, he, -, hb⟩ := (hhas _ _ _).mp hg
    unfold substOwner at he
    split at he
    · exact hn he
    · exact hs.wellFormed.noPublic k ⟨g₀, he ▸ hb⟩
  · obtain ⟨rank, hrank⟩ := hs.ranked k
    -- the new owner comes first; the others keep their order
    refine ⟨fun x => if x = n then 0 else rank x + 1, fun g e hge => ?_⟩
    obtain ⟨e₀, g₀, rfl, rfl, hb⟩ := (hhas _ _ _).mp hge.1
    have he : substOwner s.owner n e₀ ≠ n := hge.2
    have he₀ : e₀ ≠ s.owner := fun h => he (if_pos h)
    have hlt := hrank g₀ e₀ ⟨hb, he₀⟩
    have hsub : substOwner s.owner n e₀ = e₀ := if_neg he₀
    dsimp only
    rw [if_neg he, hsub]
    by_cases hg : substOwner s.owner n g₀ = n
    · rw [if_pos hg]
      omega
    · have hg₀ : g₀ ≠ s.owner := fun h => hg (if_pos h)
      have hsubg : substOwner s.owner n g₀ = g₀ := if_neg hg₀
      rw [if_neg hg, hsubg]
      omega
  · obtain ⟨hk, hown, hheld, e, he⟩ := hx
    obtain ⟨e₀, g₀, -, hg, hb⟩ := (hhas _ _ _).mp he
    have hg₀ : g₀ ≠ s.owner := fun h => hown (hg.symm.trans (if_pos h))
    have hsub : substOwner s.owner n g₀ = g₀ := if_neg hg₀
    obtain rfl : g₀ = x := hsub.symm.trans hg
    refine hs.supported g₀ k ⟨hk, hg₀, ?_, e₀, hb⟩
    rintro ⟨g', hg'⟩
    exact hheld ⟨_, (hhas _ _ _).mpr ⟨g₀, g', hsub, rfl, hg'⟩⟩

/-- **Commands keep the ACL sound while no cycle is closed.** -/
theorem Sound.execute {s' : State} (hs : Sound s) {c : Command} (ha : Allowed s c)
    (hc : SoleSupport s c) (he : execute s c = some (.ok s')) : Sound s' := by
  cases c with
  | grant mod_aip behavior =>
    rcases execute_grant hs mod_aip behavior with ⟨hind, h⟩ | ⟨-, h⟩
    · obtain rfl := Except.ok.inj (some.inj (h.symm.trans he))
      exact hs.grant ha fun hself => hc hself hind
    · exact nomatch some.inj (h.symm.trans he)
  | revoke mod_aip behavior =>
    cases behavior with
    | DROP_RESTRICT =>
      rcases execute_restrict hs ha with h | ⟨h, hs'⟩
      · exact nomatch some.inj (h.symm.trans he)
      · obtain rfl := Except.ok.inj (some.inj (h.symm.trans he))
        exact hs'
    | DROP_CASCADE =>
      obtain ⟨acl', h, hs', -⟩ := execute_cascade hs ha
      obtain rfl := Except.ok.inj (some.inj (h.symm.trans he))
      exact hs'
  | newowner newOwnerId =>
    obtain rfl := Except.ok.inj (some.inj he)
    exact hs.newowner ha

theorem Reachable.sound (h : Reachable SoleSupport s) : Sound s := by
  induction h with
  | start hs => exact hs.sound
  | step _ ha hc he ih => exact ih.execute ha hc he

/-! ### Traceable rights -/

/-- The rights that a revoke does not name. -/
def Unnamed (s : State) (mod_aip : AclItem) (e g b : ℕ) : Prop :=
  Has s.acl e g b ∧ ¬ ((e, g) = mod_aip.parties ∧ mod_aip.ai_privs.getLsbD b = true)

/-- **While no grant is accepted by which roles support each other, every right has a chain from the
owner.** A command ends. A grant is rejected if the grantor has a granted option only through the
grantee, and adds its bits otherwise. A revoke with `RESTRICT` ends with an error or removes the
bits it names; a revoke with `CASCADE` keeps of the others exactly those that then have a chain. -/
theorem acl_traceable {s : State} (h : Reachable SoleSupport s) :
    Distinct s.acl ∧
    (∀ item ∈ s.acl, ∀ b, item.ai_privs.getLsbD b = true →
      Chain s.owner s.acl (b % 16) item.ai_grantor) ∧
    (∀ c, Allowed s c → (execute s c).isSome = true) ∧
    (∀ mod_aip behavior, Allowed s (.grant mod_aip behavior) →
      (¬ Independent s.owner s.acl mod_aip →
        execute s (.grant mod_aip behavior) = some (.error .grantedBack)) ∧
      (Independent s.owner s.acl mod_aip → ∃ s',
        execute s (.grant mod_aip behavior) = some (.ok s') ∧ s'.owner = s.owner ∧
        ∀ e g b, Has s'.acl e g b ↔ Has s.acl e g b ∨
          (e, g) = mod_aip.parties ∧ mod_aip.ai_privs.getLsbD b = true) ∧
      (SoleSupport s (.grant mod_aip behavior) → SelfSupporting s mod_aip →
        execute s (.grant mod_aip behavior) = some (.error .grantedBack))) ∧
    (∀ mod_aip, Allowed s (.revoke mod_aip .DROP_RESTRICT) →
      execute s (.revoke mod_aip .DROP_RESTRICT) = some (.error .dependentPrivileges) ∨
      ∃ s', execute s (.revoke mod_aip .DROP_RESTRICT) = some (.ok s') ∧ s'.owner = s.owner ∧
        ∀ e g b, Has s'.acl e g b ↔ Unnamed s mod_aip e g b) ∧
    (∀ mod_aip, Allowed s (.revoke mod_aip .DROP_CASCADE) →
      ∃ s', execute s (.revoke mod_aip .DROP_CASCADE) = some (.ok s') ∧ s'.owner = s.owner ∧
        ∀ e g b, Has s'.acl e g b ↔ Unnamed s mod_aip e g b ∧
          ReflTransGen (fun g e => Unnamed s mod_aip e g (b % 16 + 16)) s.owner g) := by
  have hs := h.sound
  have hd := hs.wellFormed.distinct
  refine ⟨hd, ?_, ?_, ?_, ?_, ?_⟩
  · intro item hmem b hb
    exact chain_of_has hs.wellFormed hs.ranked hs.supported ⟨item, hmem, rfl, rfl, hb⟩
  · intro c ha
    cases c with
    | grant mod_aip behavior =>
      rcases execute_grant hs mod_aip behavior with ⟨-, h⟩ | ⟨-, h⟩ <;> rw [h] <;> rfl
    | revoke mod_aip behavior =>
      cases behavior with
      | DROP_RESTRICT =>
        rcases execute_restrict hs ha with h | ⟨h, -⟩ <;> rw [h] <;> rfl
      | DROP_CASCADE =>
        obtain ⟨acl', h, -⟩ := execute_cascade hs ha
        rw [h]
        rfl
    | newowner newOwnerId => rfl
  · intro mod_aip behavior ha
    have hreject : ¬ Independent s.owner s.acl mod_aip →
        execute s (.grant mod_aip behavior) = some (.error .grantedBack) := by
      intro hind
      rcases execute_grant hs mod_aip behavior with ⟨hind', -⟩ | ⟨-, h⟩
      · exact absurd hind' hind
      · exact h
    refine ⟨hreject, fun hind => ?_, fun hsole hself => hreject (hsole hself)⟩
    rcases execute_grant hs mod_aip behavior with ⟨-, h⟩ | ⟨hind', -⟩
    · exact ⟨_, h, rfl, changeItem_add_has mod_aip hd⟩
    · exact absurd hind hind'
  · intro mod_aip ha
    refine (execute_restrict hs ha).imp_right fun h => ?_
    exact ⟨_, h.1, rfl, changeItem_del_has mod_aip hd⟩
  · intro mod_aip ha
    obtain ⟨acl', h, hs', hprun⟩ := execute_cascade hs ha
    refine ⟨_, h, rfl, fun e g b => ?_⟩
    have hdel := changeItem_del_has mod_aip hd
    have hchain : Chain s.owner (changeItem mod_aip .DEL s.acl).1 (b % 16) g ↔
        ReflTransGen (fun g e => Unnamed s mod_aip e g (b % 16 + 16)) s.owner g := by
      have hrel : Edge (changeItem mod_aip .DEL s.acl).1 (b % 16) =
          fun g e => Unnamed s mod_aip e g (b % 16 + 16) := by
        funext g e
        exact propext (hdel e g _)
      rw [Chain, hrel]
    rw [← hchain]
    constructor
    · intro hb
      refine ⟨(hdel e g b).mp (hprun.sub e g b hb), ?_⟩
      exact (chain_of_has hs'.wellFormed hs'.ranked hs'.supported hb).mono
        fun _ _ hge => hprun.sub _ _ _ hge
    · rintro ⟨hb, hc⟩
      exact hprun.keeps e g b ((hdel e g b).mpr hb) hc

/-! ### Roles that support each other -/

/-- The first privilege with its grant option. -/
def firstWithOption : BitVec 32 := 0x00010001#32

theorem firstWithOption_bits (k : ℕ) : firstWithOption.getLsbD k = true ↔ k = 0 ∨ k = 16 := by
  by_cases hk : k < 32
  · have h : ∀ k : Fin 32, firstWithOption.getLsbD k = true ↔ k.1 = 0 ∨ k.1 = 16 := by decide
    exact h ⟨k, hk⟩
  · rw [BitVec.getLsbD_of_ge _ _ (by omega)]
    simp only [Bool.false_eq_true, false_iff]
    omega

/-- A role grants the first privilege with its grant option. -/
def grantFirst (g e : ℕ) : Command := .grant ⟨e, g, firstWithOption⟩ .DROP_RESTRICT

/-- A role revokes the first privilege with its grant option. -/
def revokeFirst (g e : ℕ) : Command := .revoke ⟨e, g, firstWithOption⟩ .DROP_CASCADE

theorem grantFirst_allowed (g e : ℕ) (hg : g = s.owner ∨ HoldsOption s.acl 0 g)
    (he : e ≠ ACL_ID_PUBLIC) : Allowed s (grantFirst g e) := by
  refine ⟨hg.imp_right fun h k hk hb => ?_, fun k hb => ?_, fun h => absurd h he⟩
  · have := (firstWithOption_bits k).mp hb
    obtain rfl : k = 0 := by omega
    exact h
  · have := (firstWithOption_bits _).mp hb
    exact (firstWithOption_bits k).mpr (by omega)

theorem revokeFirst_allowed (g e : ℕ) : Allowed s (revokeFirst g e) := by
  intro k hk hb
  have := (firstWithOption_bits k).mp hb
  exact (firstWithOption_bits _).mpr (by omega)

/-- What the owner 1 has given to a role. -/
def ownerTo (e : ℕ) : AclItem := ⟨e, 1, firstWithOption⟩

/-- A run can start without any right. -/
theorem reachable_empty (cond : State → Command → Prop) : Reachable cond ⟨[], 1⟩ := by
  refine .start ⟨by simp, List.nodup_nil, ?_, ?_⟩
  · exact fun e g k hb => absurd hb (has_nil e g _)
  · exact fun k ⟨g, hg⟩ => has_nil _ g _ hg

/-- A grant to a role that has granted nothing closes no cycle. -/
theorem soleSupport_of_new {s : State} {g e : ℕ} (hne : e ≠ g)
    (hnew : ∀ item ∈ s.acl, item.ai_grantor ≠ e) : SoleSupport s (grantFirst g e) := by
  rintro ⟨-, -, k, -, hpath⟩
  rcases hpath.cases_head with heq | ⟨e', ⟨⟨item, hmem, -, hfrom, -⟩, -⟩, -⟩
  · exact absurd heq hne
  · exact absurd hfrom (hnew item hmem)

/-- Roles 2, 3 and 4 have got the privilege one from the other. -/
def passedOn : List AclItem := [ownerTo 2, ⟨3, 2, firstWithOption⟩, ⟨4, 3, firstWithOption⟩]

/-- The right of role 4 has a chain from the owner, and a revoke of the first grant ends. -/
theorem acl_traceable_passedOn :
    Reachable SoleSupport ⟨passedOn, 1⟩ ∧ Chain 1 passedOn (16 % 16) 3 ∧
      ∃ s', execute ⟨passedOn, 1⟩ (revokeFirst 1 2) = some (.ok s') ∧ s'.owner = 1 := by
  have hstart : Reachable SoleSupport ⟨[], 1⟩ := reachable_empty SoleSupport
  have hto2 : Reachable SoleSupport ⟨[ownerTo 2], 1⟩ :=
    hstart.step (grantFirst_allowed 1 2 (.inl rfl) (by decide))
      (soleSupport_of_new (by decide) (by decide)) rfl
  have hto3 : Reachable SoleSupport ⟨[ownerTo 2, ⟨3, 2, firstWithOption⟩], 1⟩ :=
    hto2.step (grantFirst_allowed 2 3 (.inr ⟨1, ownerTo 2, by simp, rfl, rfl, by decide⟩)
      (by decide)) (soleSupport_of_new (by decide) (by decide)) rfl
  have hto4 : Reachable SoleSupport ⟨passedOn, 1⟩ :=
    hto3.step (grantFirst_allowed 3 4
      (.inr ⟨2, ⟨3, 2, firstWithOption⟩, by simp, rfl, rfl, by decide⟩) (by decide))
      (soleSupport_of_new (by decide) (by decide)) rfl
  obtain ⟨-, hchain, -, -, -, hcascade⟩ := acl_traceable hto4
  obtain ⟨s', hs', howner, -⟩ := hcascade _ (revokeFirst_allowed 1 2)
  exact ⟨hto4, hchain ⟨4, 3, firstWithOption⟩ (by simp [passedOn]) 16 (by decide), s', hs', howner⟩

/-- **Roles can support each other.** The owner 1 gives a privilege with grant option to roles 2 and
3, role 2 gives it to role 3, and role 3 gives it back to role 2, which is not rejected because role
3 has it from the owner as well. When the owner revokes what it has given, each of the two still has
the privilege from the other. -/
theorem acl_untraceable :
    ∃ s, Reachable (fun _ _ => True) s ∧ ∃ item ∈ s.acl, ∃ b,
      item.ai_privs.getLsbD b = true ∧ ¬ Chain s.owner s.acl (b % 16) item.ai_grantor := by
  have hfirst : Reachable (fun _ _ => True) ⟨[ownerTo 2], 1⟩ :=
    (reachable_empty _).step (grantFirst_allowed 1 2 (.inl rfl) (by decide)) trivial rfl
  have hshar : Reachable (fun _ _ => True) ⟨[ownerTo 2, ownerTo 3], 1⟩ :=
    hfirst.step (grantFirst_allowed 1 3 (.inl rfl) (by decide)) trivial rfl
  have hto3 : Reachable (fun _ _ => True)
      ⟨[ownerTo 2, ownerTo 3, ⟨3, 2, firstWithOption⟩], 1⟩ :=
    hshar.step (grantFirst_allowed 2 3 (.inr ⟨1, ownerTo 2, by simp, rfl, rfl, by decide⟩)
      (by decide)) trivial rfl
  have hback : Reachable (fun _ _ => True)
      ⟨[ownerTo 2, ownerTo 3, ⟨3, 2, firstWithOption⟩, ⟨2, 3, firstWithOption⟩], 1⟩ :=
    hto3.step (grantFirst_allowed 3 2 (.inr ⟨1, ownerTo 3, by simp, rfl, rfl, by decide⟩)
      (by decide)) trivial rfl
  have hrevoke2 : Reachable (fun _ _ => True)
      ⟨[ownerTo 3, ⟨3, 2, firstWithOption⟩, ⟨2, 3, firstWithOption⟩], 1⟩ :=
    hback.step (revokeFirst_allowed 1 2) trivial rfl
  have hrevoke3 : Reachable (fun _ _ => True)
      ⟨[⟨3, 2, firstWithOption⟩, ⟨2, 3, firstWithOption⟩], 1⟩ :=
    hrevoke2.step (revokeFirst_allowed 1 3) trivial rfl
  refine ⟨_, hrevoke3, ⟨3, 2, firstWithOption⟩, by simp, 0, by decide, fun hchain => ?_⟩
  -- nothing has been granted by the owner
  rcases ReflTransGen.cases_head hchain with h | ⟨x, ⟨item, hmem, -, hg, -⟩, -⟩
  · cases h
  · simp only [List.mem_cons, List.not_mem_nil, or_false] at hmem
    rcases hmem with rfl | rfl
    · cases hg
    · cases hg

end FdPostgres.Acl
