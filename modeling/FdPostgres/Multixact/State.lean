import FdPostgres.Slru.Truncate

/-!
# Multixacts

The multixacts of `multixact.c`: ids for lists of member transactions. The start of the members of
a multixact is stored in the offsets area under its id, and the members in the members area from
there on, in groups of a word of flags and four transaction ids. The length is not stored; it is
the distance to the start of the next multixact. Ids and offsets are 32-bit counters that wrap
around and skip zero.

* `MultiXactStateData`, `Slru`, `Multixact`: the shared counters and limits, and the two areas.
* `GetNewMultiXactId`: an id and a range of member slots. Its two parts between the locks are
  `getNewStart` and `getNewResume`.
* `RecordNewMultiXact`, `GetMultiXactIdMembers`: writing and reading back.
* `SetMultiXactIdLimit`, `SetOffsetVacuumLimit`, `TruncateMultiXact`: the limits, and removal of
  what is no longer needed.

Left out are the log records, warnings and signals, the local cache, the database of the oldest
multixact and the buffers of the areas: a page of an area is there, with its contents, or it is
not. Memory for the members read is always found.
-/

namespace FdPostgres

open Function

/-! ### Layout -/

def MultiXactIdToOffsetPage (multi : ℕ) : ℕ := multi / MULTIXACT_OFFSETS_PER_PAGE

def MultiXactIdToOffsetEntry (multi : ℕ) : ℕ := multi % MULTIXACT_OFFSETS_PER_PAGE

def MULTIXACT_MEMBERS_PER_MEMBERGROUP : ℕ := 4

def MULTIXACT_FLAGBYTES_PER_GROUP : ℕ := 4

def MULTIXACT_MEMBERGROUP_SIZE : ℕ :=
  4 * MULTIXACT_MEMBERS_PER_MEMBERGROUP + MULTIXACT_FLAGBYTES_PER_GROUP

def MULTIXACT_MEMBERGROUPS_PER_PAGE : ℕ := BLCKSZ / MULTIXACT_MEMBERGROUP_SIZE

def MULTIXACT_MEMBERS_PER_PAGE : ℕ :=
  MULTIXACT_MEMBERGROUPS_PER_PAGE * MULTIXACT_MEMBERS_PER_MEMBERGROUP

def MaxMultiXactOffset : ℕ := 2 ^ 32 - 1

def MAX_MEMBERS_IN_LAST_MEMBERS_PAGE : ℕ := MaxMultiXactOffset % MULTIXACT_MEMBERS_PER_PAGE + 1

variable (offset : ℕ)

def MXOffsetToMemberPage : ℕ := offset / MULTIXACT_MEMBERS_PER_PAGE

def MXOffsetToMemberSegment : ℕ :=
  MXOffsetToMemberPage offset / SLRU_PAGES_PER_SEGMENT

def MXOffsetToFlagsOffset : ℕ :=
  offset / MULTIXACT_MEMBERS_PER_MEMBERGROUP % MULTIXACT_MEMBERGROUPS_PER_PAGE *
    MULTIXACT_MEMBERGROUP_SIZE

def MXOffsetToFlagsBitShift : ℕ := offset % MULTIXACT_MEMBERS_PER_MEMBERGROUP * 8

def MXOffsetToMemberOffset : ℕ :=
  MXOffsetToFlagsOffset offset + MULTIXACT_FLAGBYTES_PER_GROUP +
    offset % MULTIXACT_MEMBERS_PER_MEMBERGROUP * 4

/-- The members of a segment. -/
def membersPerSegment : ℕ := MULTIXACT_MEMBERS_PER_PAGE * SLRU_PAGES_PER_SEGMENT

/-! ### State -/

inductive MultiXactStatus where
  | ForKeyShare
  | ForShare
  | ForNoKeyUpdate
  | ForUpdate
  | NoKeyUpdate
  | Update
  deriving Repr, DecidableEq

/-- The numbers of the statuses. -/
def MultiXactStatus.code : MultiXactStatus → ℕ
  | ForKeyShare => 0
  | ForShare => 1
  | ForNoKeyUpdate => 2
  | ForUpdate => 3
  | NoKeyUpdate => 4
  | Update => 5

structure MultiXactMember where
  xid : ℕ
  status : MultiXactStatus
  deriving Repr, DecidableEq

/-- A member as its transaction id and the number of its status. -/
def MultiXactMember.raw (m : MultiXactMember) : ℕ × ℕ := (m.xid, m.status.code)

structure MultiXactStateData where
  nextMXact : ℕ
  nextOffset : ℕ
  oldestMultiXactId : ℕ
  oldestOffset : ℕ
  oldestOffsetKnown : Bool
  multiVacLimit : ℕ
  multiWarnLimit : ℕ
  multiStopLimit : ℕ
  multiWrapLimit : ℕ
  offsetStopLimit : ℕ
  deriving Repr, DecidableEq

/-- An area: the words of its pages. -/
structure Slru where
  pages : ℕ → Option (ℕ → ℕ)
  latest_page_number : ℕ

/-- The multixact state with its two areas. -/
structure Multixact where
  state : MultiXactStateData
  offsets : Slru
  members : Slru

/-- What the functions report. -/
inductive MultiXactError where
  | recovery
  | stopLimit
  | membersLimit (nmembers remaining : ℕ)
  | doesNoLongerExist (multi : ℕ)
  | notCreatedYet (multi : ℕ)
  | couldNotAccess (pageno : ℕ)
  deriving Repr, DecidableEq

/-- The texts of the reports. -/
def MultiXactError.message : MultiXactError → String
  | recovery => "cannot assign MultiXactIds during recovery"
  | stopLimit => "database is not accepting commands that generate new MultiXactIds to avoid " ++
      "wraparound data loss"
  | membersLimit _ _ => "multixact \"members\" limit exceeded"
  | doesNoLongerExist multi =>
      "MultiXactId " ++ toString multi ++ " does no longer exist -- apparent wraparound"
  | notCreatedYet multi =>
      "MultiXactId " ++ toString multi ++ " has not been created yet -- apparent wraparound"
  | couldNotAccess _ => "could not access status of transaction"

/-- What the functions are told by the rest of the server. -/
structure MultiXactEnv where
  IsUnderPostmaster : Bool
  RecoveryInProgress : Bool
  autovacuum_multixact_freeze_max_age : ℕ

/-! ### Areas -/

variable (ctl : Slru)

def SimpleLruZeroPage (pageno : ℕ) : Slru where
  pages := update ctl.pages pageno (some fun _ => 0)
  latest_page_number := pageno

/-- A page with new contents. -/
def Slru.setPage (pageno : ℕ) (page : ℕ → ℕ) : Slru :=
  { ctl with pages := update ctl.pages pageno (some page) }

def SlruDeleteSegment (segno : ℕ) : Slru :=
  { ctl with pages := fun p => if p / SLRU_PAGES_PER_SEGMENT = segno then none else ctl.pages p }

def ExtendMultiXactOffset (multi : ℕ) : Slru :=
  if MultiXactIdToOffsetEntry multi ≠ 0 ∧ multi ≠ FirstMultiXactId then ctl
  else SimpleLruZeroPage ctl (MultiXactIdToOffsetPage multi)

/-- The number of members from an offset to the end of its page. -/
def membersToPageEnd : ℕ :=
  if (offset + MAX_MEMBERS_IN_LAST_MEMBERS_PAGE) % 2 ^ 32 < offset then
    MaxMultiXactOffset - offset + 1
  else MULTIXACT_MEMBERS_PER_PAGE - offset % MULTIXACT_MEMBERS_PER_PAGE

/-- The loop of `ExtendMultiXactMember`; every round takes at least one member. -/
def extendMemberLoop : ℕ → Slru → ℕ → ℕ → Slru
  | 0, ctl, _, _ => ctl
  | fuel + 1, ctl, offset, nmembers =>
      if nmembers = 0 then ctl
      else
        let ctl :=
          if MXOffsetToFlagsOffset offset = 0 ∧ MXOffsetToFlagsBitShift offset = 0 then
            SimpleLruZeroPage ctl (MXOffsetToMemberPage offset)
          else ctl
        extendMemberLoop fuel ctl ((offset + membersToPageEnd offset) % 2 ^ 32)
          (nmembers - membersToPageEnd offset)

def ExtendMultiXactMember (offset nmembers : ℕ) : Slru :=
  extendMemberLoop nmembers ctl offset nmembers

/-! ### New multixacts -/

def MultiXactOffsetWouldWrap (boundary start distance : ℕ) : Bool :=
  let finish := (start + distance) % 2 ^ 32
  let finish := if finish < start then finish + 1 else finish
  if start < boundary then decide (finish ≥ boundary ∨ finish < start)
  else decide (finish ≥ boundary ∧ finish < start)

/-- A new multixact: its id, the start of its members, and the number of slots taken. -/
structure NewMultiXact where
  multi : ℕ
  offset : ℕ
  slots : ℕ
  deriving Repr, DecidableEq

/-- The start of the members: slot zero is skipped. -/
def startOffset (nextOffset : ℕ) : ℕ := if nextOffset = 0 then 1 else nextOffset

/-- The slots taken: with slot zero, if it is skipped. -/
def slotsTaken (nextOffset nmembers : ℕ) : ℕ := if nextOffset = 0 then nmembers + 1 else nmembers

/-- The members limit of `GetNewMultiXactId`. -/
def pastOffsetStopLimit (st : MultiXactStateData) (nmembers : ℕ) : Bool :=
  st.oldestOffsetKnown &&
    MultiXactOffsetWouldWrap st.offsetStopLimit st.nextOffset (slotsTaken st.nextOffset nmembers)

variable (env : MultiXactEnv) (mx : Multixact)

/-- The part of `GetNewMultiXactId` after the limits of the ids: room in the areas, and the
counters. -/
def reserve (result nmembers : ℕ) : Except MultiXactError NewMultiXact × Multixact :=
  let mx := { mx with offsets := ExtendMultiXactOffset mx.offsets result }
  let slots := slotsTaken mx.state.nextOffset nmembers
  if pastOffsetStopLimit mx.state nmembers then
    (.error (.membersLimit slots
      (Word32.sub (Word32.sub mx.state.offsetStopLimit mx.state.nextOffset) 1)), mx)
  else
    (.ok ⟨result, startOffset mx.state.nextOffset, slots⟩,
      { mx with
        members := ExtendMultiXactMember mx.members mx.state.nextOffset slots
        state := { mx.state with
          nextMXact := (mx.state.nextMXact + 1) % 2 ^ 32
          nextOffset := (mx.state.nextOffset + slots) % 2 ^ 32 } })

/-- What a backend keeps while it has released the lock in `GetNewMultiXactId`. -/
structure LimitCheck where
  result : ℕ
  nmembers : ℕ
  multiStopLimit : ℕ
  deriving Repr, DecidableEq

/-- The counter of the ids, past zero. -/
def fixNextMXact (st : MultiXactStateData) : MultiXactStateData :=
  if st.nextMXact < FirstMultiXactId then { st with nextMXact := FirstMultiXactId } else st

/-- The first part of `GetNewMultiXactId`: up to its result, or to the release of the lock when the
limit for vacuum is reached. -/
def getNewStart (nmembers : ℕ) : (LimitCheck ⊕ Except MultiXactError NewMultiXact) × Multixact :=
  if env.RecoveryInProgress then (.inr (.error .recovery), mx)
  else
    let mx := { mx with state := fixNextMXact mx.state }
    let result := mx.state.nextMXact
    if !MultiXactIdPrecedes result mx.state.multiVacLimit then
      (.inl ⟨result, nmembers, mx.state.multiStopLimit⟩, mx)
    else
      let r := reserve mx result nmembers
      (.inr r.1, r.2)

/-- The second part of `GetNewMultiXactId`, after the lock was released: the limit to stop at, and
the result with the counter that is found when the lock is there again. -/
def getNewResume (c : LimitCheck) : Except MultiXactError NewMultiXact × Multixact :=
  if env.IsUnderPostmaster && !MultiXactIdPrecedes c.result c.multiStopLimit then
    (.error .stopLimit, mx)
  else
    let result :=
      if mx.state.nextMXact < FirstMultiXactId then FirstMultiXactId else mx.state.nextMXact
    reserve mx result c.nmembers

/-- `GetNewMultiXactId`, when nothing happens while the lock is released. -/
def GetNewMultiXactId (nmembers : ℕ) : Except MultiXactError NewMultiXact × Multixact :=
  match getNewStart env mx nmembers with
  | (.inl c, mx) => getNewResume env mx c
  | (.inr r, mx) => (r, mx)

/-! ### Members -/

/-- The word of flags with the status of a member. -/
def setFlags (flagsval status bshift : ℕ) : ℕ :=
  (flagsval &&& ((2 ^ 32 - 1) ^^^ (255 <<< bshift))) ||| (status <<< bshift)

/-- A member stored on its page. -/
def storeMember (page : ℕ → ℕ) (offset : ℕ) (m : MultiXactMember) : ℕ → ℕ :=
  let page := update page (MXOffsetToMemberOffset offset) m.xid
  update page (MXOffsetToFlagsOffset offset)
    (setFlags (page (MXOffsetToFlagsOffset offset)) m.status.code (MXOffsetToFlagsBitShift offset))

/-- The loop of `RecordNewMultiXact` over the members. -/
def recordMembers : Slru → ℕ → List MultiXactMember → Except MultiXactError Unit × Slru
  | ctl, _, [] => (.ok (), ctl)
  | ctl, offset, m :: members =>
      match ctl.pages (MXOffsetToMemberPage offset) with
      | none => (.error (.couldNotAccess (MXOffsetToMemberPage offset)), ctl)
      | some page =>
          recordMembers (ctl.setPage (MXOffsetToMemberPage offset) (storeMember page offset m))
            ((offset + 1) % 2 ^ 32) members

def RecordNewMultiXact (multi offset : ℕ) (members : List MultiXactMember) :
    Except MultiXactError Unit × Multixact :=
  match mx.offsets.pages (MultiXactIdToOffsetPage multi) with
  | none => (.error (.couldNotAccess (MultiXactIdToOffsetPage multi)), mx)
  | some page =>
      let r := recordMembers mx.members offset members
      (r.1, { mx with
        offsets := mx.offsets.setPage (MultiXactIdToOffsetPage multi)
          (update page (MultiXactIdToOffsetEntry multi) offset)
        members := r.2 })

/-- The loop of `GetMultiXactIdMembers` over the members; a slot without a transaction is
skipped. -/
def readMembers : Slru → ℕ → ℕ → Except MultiXactError (List (ℕ × ℕ))
  | _, _, 0 => .ok []
  | ctl, offset, length + 1 =>
      match ctl.pages (MXOffsetToMemberPage offset) with
      | none => .error (.couldNotAccess (MXOffsetToMemberPage offset))
      | some page =>
          match readMembers ctl ((offset + 1) % 2 ^ 32) length with
          | .error e => .error e
          | .ok rest =>
              let xid := page (MXOffsetToMemberOffset offset)
              if xid = InvalidTransactionId then .ok rest
              else
                .ok ((xid, (page (MXOffsetToFlagsOffset offset) >>>
                  MXOffsetToFlagsBitShift offset) &&& 255) :: rest)

/-- What an attempt of `GetMultiXactIdMembers` ends with. -/
inductive ReadOutcome where
  | retry
  | error (e : MultiXactError)
  | members (l : List (ℕ × ℕ))
  deriving Repr, DecidableEq

/-- The entry of a multixact in the offsets area. -/
def offsetEntry (multi : ℕ) : Option ℕ :=
  (ctl.pages (MultiXactIdToOffsetPage multi)).map fun page =>
    page (MultiXactIdToOffsetEntry multi)

/-- The members between two offsets; the length is a signed number. -/
def readRange (offset finish : ℕ) : ReadOutcome :=
  match readMembers ctl offset (Word32.toInt (Word32.sub finish offset)).toNat with
  | .error e => .error e
  | .ok l => .members l

/-- `GetMultiXactIdMembers` of a valid multixact that is not in the cache, for a caller that does
not ask for locks only: an attempt, up to the result or to a retry. -/
def GetMultiXactIdMembers (multi : ℕ) : ReadOutcome :=
  let st := mx.state
  if MultiXactIdPrecedes multi st.oldestMultiXactId then .error (.doesNoLongerExist multi)
  else if !MultiXactIdPrecedes multi st.nextMXact then .error (.notCreatedYet multi)
  else
    match offsetEntry mx.offsets multi with
    | none => .error (.couldNotAccess (MultiXactIdToOffsetPage multi))
    | some offset =>
        let tmpMXact := (multi + 1) % 2 ^ 32
        if st.nextMXact = tmpMXact then readRange mx.members offset st.nextOffset
        else
          let tmpMXact := if tmpMXact < FirstMultiXactId then FirstMultiXactId else tmpMXact
          match offsetEntry mx.offsets tmpMXact with
          | none => .error (.couldNotAccess (MultiXactIdToOffsetPage tmpMXact))
          | some nextMXOffset =>
              if nextMXOffset = 0 then .retry else readRange mx.members offset nextMXOffset

/-! ### Limits -/

def find_multixact_start (multi : ℕ) : Option ℕ := offsetEntry mx.offsets multi

/-- The stop limit for an oldest offset: one segment before the start of its segment. -/
def offsetStopLimitFor (oldestOffset : ℕ) : ℕ :=
  Word32.sub (oldestOffset - oldestOffset % membersPerSegment) membersPerSegment

/-- The offset of the oldest multixact, if it is found. -/
def oldestOffsetOf (multi : ℕ) : Option ℕ :=
  if multi = mx.state.nextMXact then some mx.state.nextOffset else find_multixact_start mx multi

def SetOffsetVacuumLimit : Multixact :=
  match oldestOffsetOf mx mx.state.oldestMultiXactId with
  | some oldestOffset =>
      { mx with state := { mx.state with
          oldestOffset := oldestOffset
          oldestOffsetKnown := true
          offsetStopLimit := offsetStopLimitFor oldestOffset } }
  | none =>
      if mx.state.oldestOffsetKnown then mx
      else
        { mx with state := { mx.state with
            oldestOffset := 0
            oldestOffsetKnown := false
            offsetStopLimit := 0 } }

/-- A limit that is moved forward past zero. -/
def limitAbove (limit : ℕ) : ℕ :=
  if limit < FirstMultiXactId then limit + FirstMultiXactId else limit

/-- A limit that is moved back past zero. -/
def limitBelow (limit : ℕ) : ℕ :=
  if limit < FirstMultiXactId then Word32.sub limit FirstMultiXactId else limit

/-- `SetMultiXactIdLimit` in a running cluster. -/
def SetMultiXactIdLimit (oldest_datminmxid : ℕ) : Multixact :=
  let multiWrapLimit := limitAbove ((oldest_datminmxid + MaxMultiXactId / 2) % 2 ^ 32)
  SetOffsetVacuumLimit { mx with state := { mx.state with
    oldestMultiXactId := oldest_datminmxid
    multiVacLimit := limitAbove
      ((oldest_datminmxid + env.autovacuum_multixact_freeze_max_age) % 2 ^ 32)
    multiWarnLimit := limitBelow (Word32.sub multiWrapLimit 40000000)
    multiStopLimit := limitBelow (Word32.sub multiWrapLimit 3000000)
    multiWrapLimit := multiWrapLimit } }

/-! ### Truncation -/

/-- The loop of `PerformMembersTruncation`: none if it does not end within the given number of
rounds. -/
def membersTruncationLoop : ℕ → Slru → ℕ → ℕ → Option Slru
  | 0, _, _, _ => none
  | fuel + 1, ctl, segment, endsegment =>
      if segment = endsegment then some ctl
      else
        membersTruncationLoop fuel (SlruDeleteSegment ctl segment)
          (if segment = MXOffsetToMemberSegment MaxMultiXactOffset then 0 else segment + 1)
          endsegment

def PerformMembersTruncation (oldestOffset newOldestOffset : ℕ) : Option Slru :=
  membersTruncationLoop (MXOffsetToMemberSegment MaxMultiXactOffset + 1) ctl
    (MXOffsetToMemberSegment oldestOffset) (MXOffsetToMemberSegment newOldestOffset)

/-- `PerformOffsetsTruncation`: the pages of the segments that remain. -/
def PerformOffsetsTruncation (newOldestMulti : ℕ) : Slru :=
  { ctl with
    pages := fun p =>
      if p / SLRU_PAGES_PER_SEGMENT ∈
          SimpleLruTruncate MultiXactOffsetPagePrecedes ctl.latest_page_number
            (MultiXactIdToOffsetPage (PreviousMultiXactId newOldestMulti))
            [p / SLRU_PAGES_PER_SEGMENT] then ctl.pages p
      else none }

/-- `SlruScanDirCbFindEarliest` over the segments of the directory. -/
def earliestExistingPage (dir : List ℕ) : Option ℕ :=
  dir.foldl (fun earliest segno =>
    match earliest with
    | none => some (segno * SLRU_PAGES_PER_SEGMENT)
    | some page =>
        if MultiXactOffsetPagePrecedes (segno * SLRU_PAGES_PER_SEGMENT) page then
          some (segno * SLRU_PAGES_PER_SEGMENT)
        else some page) none

/-- The earliest multixact that can be read. -/
def earliestMulti (dir : List ℕ) : ℕ :=
  let earliest :=
    match earliestExistingPage dir with
    | none => Word32.sub 0 MULTIXACT_OFFSETS_PER_PAGE
    | some page => page * MULTIXACT_OFFSETS_PER_PAGE % 2 ^ 32
  if earliest < FirstMultiXactId then FirstMultiXactId else earliest

/-- `TruncateMultiXact`, with the segments of the offsets directory as they are listed: none if the
truncation of the members does not end. -/
def TruncateMultiXact (newOldestMulti : ℕ) (dir : List ℕ) : Option Multixact :=
  let oldestMulti := mx.state.oldestMultiXactId
  if MultiXactIdPrecedesOrEquals newOldestMulti oldestMulti then some mx
  else if MultiXactIdPrecedes oldestMulti (earliestMulti dir) then some mx
  else
    match oldestOffsetOf mx oldestMulti, oldestOffsetOf mx newOldestMulti with
    | some oldestOffset, some newOldestOffset =>
        match PerformMembersTruncation mx.members oldestOffset newOldestOffset with
        | none => none
        | some members =>
            some { mx with
              state := { mx.state with oldestMultiXactId := newOldestMulti }
              members := members
              offsets := PerformOffsetsTruncation mx.offsets newOldestMulti }
    | _, _ => some mx

end FdPostgres
