import Mathlib

/-!
# Access Control Lists

An ACL is an array of items; an item says which privileges a role, the grantee, has been given by
another one, the grantor. The lower 16 bits are privileges, the upper 16 bits are grant options: the
right to give the privilege to others. The owner of the object has all grant options.

`aclupdate` adds or removes privileges of one grantor and grantee. If grant options are removed,
`recursive_revoke` looks at what the grantee has given with them, and if grant options are added,
`check_circularity` makes sure that the grantor does not have them from the grantee. The two call
`aclupdate` again, and restart their loops over the array after each call.

* `AclItem`, `aclmask`: the items, and the privileges of a role.
* `aclupdate`, `check_circularity`, `recursive_revoke`: changes of an ACL.
* `aclnewowner`: a change of the owner.

There are no role memberships here. A result of `none` stands for a loop that does not end.
-/

namespace FdPostgres.Acl

def ACL_ID_PUBLIC : ℕ := 0

structure AclItem where
  ai_grantee : ℕ
  ai_grantor : ℕ
  ai_privs : BitVec 32
  deriving Repr, DecidableEq

/-! ### Bits -/

def ACLITEM_GET_PRIVS (item : AclItem) : BitVec 32 := item.ai_privs &&& 0xFFFF#32

def ACL_OPTION_TO_PRIVS (privs : BitVec 32) : BitVec 32 := privs >>> 16 &&& 0xFFFF#32

def ACLITEM_GET_GOPTIONS (item : AclItem) : BitVec 32 := ACL_OPTION_TO_PRIVS item.ai_privs

def ACL_GRANT_OPTION_FOR (privs : BitVec 32) : BitVec 32 := (privs &&& 0xFFFF#32) <<< 16

/-- The rights set by `ACLITEM_SET_PRIVS_GOPTIONS`. -/
def rightsOf (privs goptions : BitVec 32) : BitVec 32 :=
  privs &&& 0xFFFF#32 ||| ACL_GRANT_OPTION_FOR goptions

def ACLITEM_ALL_GOPTION_BITS : BitVec 32 := 0xFFFF0000#32

def aclitem_match (a1 a2 : AclItem) : Bool :=
  a1.ai_grantee == a2.ai_grantee && a1.ai_grantor == a2.ai_grantor

/-! ### Privileges of a role -/

inductive AclMaskHow where
  | ACLMASK_ALL
  | ACLMASK_ANY
  deriving Repr, DecidableEq

/-- `has_privs_of_role`, without role memberships. -/
def has_privs_of_role (member role : ℕ) : Bool := member == role

/-- The test of `aclmask` for whether its result is final. -/
def aclmaskDone (how : AclMaskHow) (mask result : BitVec 32) : Bool :=
  match how with
  | .ACLMASK_ALL => result == mask
  | .ACLMASK_ANY => result != 0#32

/-- A pass of `aclmask` over the items of some grantees: the result, and whether it is final. -/
def aclmaskPass (counts : BitVec 32 → AclItem → Bool) (mask : BitVec 32) (how : AclMaskHow) :
    List AclItem → BitVec 32 → BitVec 32 × Bool
  | [], result => (result, false)
  | item :: acl, result =>
      if counts result item then
        let result := result ||| (item.ai_privs &&& mask)
        if aclmaskDone how mask result then (result, true)
        else aclmaskPass counts mask how acl result
      else aclmaskPass counts mask how acl result

/-- The item is for the role itself or for everyone. -/
def isDirect (roleid : ℕ) (item : AclItem) : Bool :=
  item.ai_grantee == ACL_ID_PUBLIC || item.ai_grantee == roleid

def aclmask (acl : List AclItem) (roleid ownerId : ℕ) (mask : BitVec 32) (how : AclMaskHow) :
    BitVec 32 :=
  if mask = 0#32 then 0#32
  else
    let isOwner := mask &&& ACLITEM_ALL_GOPTION_BITS != 0#32 && has_privs_of_role roleid ownerId
    let result := if isOwner then mask &&& ACLITEM_ALL_GOPTION_BITS else 0#32
    if isOwner && aclmaskDone how mask result then result
    else
      match aclmaskPass (fun _ item => isDirect roleid item) mask how acl result with
      | (result, true) => result
      | (result, false) =>
          (aclmaskPass (fun result item => !isDirect roleid item &&
            item.ai_privs &&& (mask &&& ~~~result) != 0#32 &&
              has_privs_of_role roleid item.ai_grantee) mask how acl result).1

/-! ### Changes -/

/-- `ACL_MODECHG_ADD`, `ACL_MODECHG_DEL`, `ACL_MODECHG_EQL`. -/
inductive ModeChange where
  | ADD
  | DEL
  | EQL
  deriving Repr, DecidableEq

inductive DropBehavior where
  | DROP_RESTRICT
  | DROP_CASCADE
  deriving Repr, DecidableEq

/-- The errors of `check_circularity` and `recursive_revoke`. -/
inductive AclError where
  /-- "grant options cannot be granted back to your own grantor" -/
  | grantedBack
  /-- "dependent privileges exist" -/
  | dependentPrivileges
  deriving Repr, DecidableEq

/-- The new rights of an item. -/
def changeRights (modechg : ModeChange) (rights mod : BitVec 32) : BitVec 32 :=
  match modechg with
  | .ADD => rights ||| mod
  | .DEL => rights &&& ~~~mod
  | .EQL => mod

/-- The item that matches is changed, or a new one is appended; it is deleted if it has no rights
left. The second result is what its rights were before. -/
def changeItem (mod_aip : AclItem) (modechg : ModeChange) :
    List AclItem → List AclItem × BitVec 32
  | [] =>
      let new_rights := changeRights modechg 0#32 mod_aip.ai_privs
      (if new_rights = 0#32 then [] else [{ mod_aip with ai_privs := new_rights }], 0#32)
  | item :: acl =>
      if aclitem_match mod_aip item then
        let new_rights := changeRights modechg item.ai_privs mod_aip.ai_privs
        (if new_rights = 0#32 then acl else { item with ai_privs := new_rights } :: acl,
          item.ai_privs)
      else (item :: (changeItem mod_aip modechg acl).1, (changeItem mod_aip modechg acl).2)

/-- The grant options that a change removes. -/
def lostOptions (mod_aip : AclItem) (modechg : ModeChange) (old_rights : BitVec 32) : BitVec 32 :=
  ACL_OPTION_TO_PRIVS old_rights &&&
    ~~~ACL_OPTION_TO_PRIVS (changeRights modechg old_rights mod_aip.ai_privs)

/-- The result of a change. -/
abbrev Outcome := Option (Except AclError (List AclItem))

/-- `recursive_revoke`, given its loop. -/
def revokeWith (loop : List AclItem → ℕ → BitVec 32 → Outcome) (ownerId : ℕ) (acl : List AclItem)
    (grantee : ℕ) (revoke_privs : BitVec 32) : Outcome :=
  if grantee = ownerId then some (.ok acl)
  else
    let still_has := aclmask acl grantee ownerId (ACL_GRANT_OPTION_FOR revoke_privs) .ACLMASK_ALL
    let revoke_privs := revoke_privs &&& ~~~ACL_OPTION_TO_PRIVS still_has
    if revoke_privs = 0#32 then some (.ok acl) else loop acl grantee revoke_privs

/-- `aclupdate` behind the check for circularity, given `recursive_revoke`. -/
def updateWith (revoke : List AclItem → ℕ → BitVec 32 → Outcome) (acl : List AclItem)
    (mod_aip : AclItem) (modechg : ModeChange) : Outcome :=
  match changeItem mod_aip modechg acl with
  | (new_acl, old_rights) =>
      let lost := lostOptions mod_aip modechg old_rights
      if lost ≠ 0#32 then revoke new_acl mod_aip.ai_grantee lost else some (.ok new_acl)

/-- An item that the loop of `recursive_revoke` looks for. -/
def isAbandoned (grantee : ℕ) (revoke_privs : BitVec 32) (item : AclItem) : Bool :=
  item.ai_grantor == grantee && ACLITEM_GET_PRIVS item &&& revoke_privs != 0#32

/-- The loop of `recursive_revoke`, which restarts after each change. -/
def revokeLoop (ownerId : ℕ) (behavior : DropBehavior) :
    ℕ → List AclItem → ℕ → BitVec 32 → Outcome
  | 0, _, _, _ => none
  | fuel + 1, acl, grantee, revoke_privs =>
      match acl.find? (isAbandoned grantee revoke_privs) with
      | none => some (.ok acl)
      | some item =>
          match behavior with
          | .DROP_RESTRICT => some (.error .dependentPrivileges)
          | .DROP_CASCADE =>
              match updateWith (revokeWith (revokeLoop ownerId behavior fuel) ownerId) acl
                  ⟨item.ai_grantee, grantee, rightsOf revoke_privs revoke_privs⟩ .DEL with
              | some (.ok acl) => revokeLoop ownerId behavior fuel acl grantee revoke_privs
              | out => out

/-- The rights of all items as numbers: an upper bound for the number of changes. -/
def aclSize (acl : List AclItem) : ℕ := (acl.map fun item => item.ai_privs.toNat).sum

def recursive_revoke (ownerId : ℕ) (behavior : DropBehavior) (acl : List AclItem) (grantee : ℕ)
    (revoke_privs : BitVec 32) : Outcome :=
  revokeWith (revokeLoop ownerId behavior (aclSize acl + 1)) ownerId acl grantee revoke_privs

/-- The loop of `check_circularity` that removes the grant options of a role. -/
def zapLoop (ownerId grantee : ℕ) : ℕ → List AclItem → Outcome
  | 0, _ => none
  | fuel + 1, acl =>
      match acl.find? (fun item =>
          item.ai_grantee == grantee && ACLITEM_GET_GOPTIONS item != 0#32) with
      | none => some (.ok acl)
      | some item =>
          match updateWith (recursive_revoke ownerId .DROP_CASCADE) acl item .DEL with
          | some (.ok acl) => zapLoop ownerId grantee fuel acl
          | out => out

variable (old_acl : List AclItem)

/-- `check_circularity`: whether the grantor has the grant options without the grantee. -/
def check_circularity (mod_aip : AclItem) (ownerId : ℕ) : Option (Except AclError Unit) :=
  if mod_aip.ai_grantor = ownerId then some (.ok ())
  else
    match zapLoop ownerId mod_aip.ai_grantee (aclSize old_acl + 1) old_acl with
    | none => none
    | some (.error e) => some (.error e)
    | some (.ok acl) =>
        let own_privs := ACL_OPTION_TO_PRIVS (aclmask acl mod_aip.ai_grantor ownerId
          (ACL_GRANT_OPTION_FOR (ACLITEM_GET_GOPTIONS mod_aip)) .ACLMASK_ALL)
        if ACLITEM_GET_GOPTIONS mod_aip &&& ~~~own_privs ≠ 0#32 then some (.error .grantedBack)
        else some (.ok ())

def aclupdate (mod_aip : AclItem) (modechg : ModeChange) (ownerId : ℕ) (behavior : DropBehavior) :
    Outcome :=
  if modechg ≠ .DEL ∧ ACLITEM_GET_GOPTIONS mod_aip ≠ 0#32 then
    match check_circularity old_acl mod_aip ownerId with
    | none => none
    | some (.error e) => some (.error e)
    | some (.ok ()) => updateWith (recursive_revoke ownerId behavior) old_acl mod_aip modechg
  else updateWith (recursive_revoke ownerId behavior) old_acl mod_aip modechg

/-! ### A new owner -/

/-- The new owner in the place of the old one. -/
def substOwner (oldOwnerId newOwnerId roleid : ℕ) : ℕ :=
  if roleid = oldOwnerId then newOwnerId else roleid

/-- An item with the new owner in the place of the old one. -/
def substItem (oldOwnerId newOwnerId : ℕ) (item : AclItem) : AclItem where
  ai_grantee := substOwner oldOwnerId newOwnerId item.ai_grantee
  ai_grantor := substOwner oldOwnerId newOwnerId item.ai_grantor
  ai_privs := item.ai_privs

/-- The inner loop that merges duplicates: the rights of an item, and the items behind it, where
those that were merged have no rights. -/
def absorb (targ : AclItem) : List AclItem → BitVec 32 → BitVec 32 × List AclItem
  | [], rights => (rights, [])
  | src :: rest, rights =>
      if src.ai_privs ≠ 0#32 ∧ aclitem_match targ src then
        match absorb targ rest (rights ||| src.ai_privs) with
        | (rights, rest) => (rights, { src with ai_privs := 0#32 } :: rest)
      else
        match absorb targ rest rights with
        | (rights, rest) => (rights, src :: rest)

/-- The outer loop that merges duplicates. -/
def mergeLoop : ℕ → List AclItem → List AclItem
  | 0, _ => []
  | _ + 1, [] => []
  | fuel + 1, targ :: rest =>
      if targ.ai_privs = 0#32 then mergeLoop fuel rest
      else
        match absorb targ rest targ.ai_privs with
        | (rights, rest) => { targ with ai_privs := rights } :: mergeLoop fuel rest

def aclnewowner (oldOwnerId newOwnerId : ℕ) : List AclItem :=
  let new_acl := old_acl.map (substItem oldOwnerId newOwnerId)
  let newpresent := old_acl.any fun item =>
    (item.ai_grantor != oldOwnerId && item.ai_grantor == newOwnerId) ||
      (item.ai_grantee != oldOwnerId && item.ai_grantee == newOwnerId)
  if newpresent then mergeLoop new_acl.length new_acl else new_acl

end FdPostgres.Acl
