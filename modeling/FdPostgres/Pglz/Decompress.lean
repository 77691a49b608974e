import FdPostgres.Pglz.Format

/-!
# Decompression

`pglz_decompress` reads a control byte and then up to eight items, until the input or the room in
the output is used up. It can be given a part of the compressed data only, to get a prefix of the
original.

* `pglz_decompress`: `none` is the result -1, otherwise the bytes written are returned.
* `pglz_maximum_compressed_size`: how much of the compressed data is needed for a prefix.
* `decompress_prefix`, `decompress_whole`: **groups of items that tell a byte string are
  decompressed to it**, to a prefix from as many bytes as the formula gives.
* `decompress_from_source`: **when arbitrary input is decompressed from its bytes alone**: if the
  call returns -1, or no reference goes back before the start of the output. That is not checked.
* `decompress_bounded`: **no input makes the decoder write behind the destination.**
-/

namespace FdPostgres

namespace Pglz

open BackReferences List

/-! ### The decoder -/

/-- The loop over the items of a group: `count` more items at most, from `sp` on. The place `dp` in
the output is the end of what was written so far. An error is the result -1, with what was written
before. -/
def itemsLoop (source : List UInt8) (rawsize : ℕ) :
    ℕ → ℕ → List UInt8 → UInt8 → Except (List UInt8) (ℕ × List UInt8)
  | 0, sp, out, _ => .ok (sp, out)
  | count + 1, sp, out, ctrl =>
      if sp < source.length ∧ out.length < rawsize then
        if ctrl &&& 1 ≠ 0 then
          let (len, off, sp) := readTag source sp
          if sp > source.length ∨ off = 0 then .error out
          else
            let len := min len (rawsize - out.length)
            itemsLoop source rawsize count sp (doublingCopy 0 (len + 1) off len out) (ctrl >>> 1)
        else
          itemsLoop source rawsize count (sp + 1) (out ++ [source.getD sp 0]) (ctrl >>> 1)
      else .ok (sp, out)

/-- The loop over the groups. Each round reads a control byte, so the input bounds the rounds. -/
def groupsLoop (source : List UInt8) (rawsize : ℕ) :
    ℕ → ℕ → List UInt8 → Except (List UInt8) (ℕ × List UInt8)
  | 0, _, out => .error out
  | fuel + 1, sp, out =>
      if sp < source.length ∧ out.length < rawsize then
        match itemsLoop source rawsize 8 (sp + 1) out (source.getD sp 0) with
        | .error out => .error out
        | .ok (sp, out) => groupsLoop source rawsize fuel sp out
      else .ok (sp, out)

def pglz_decompress (source : List UInt8) (rawsize : ℕ) (check_complete : Bool) :
    Option (List UInt8) :=
  match groupsLoop source rawsize (source.length + 1) 0 [] with
  | .error _ => none
  | .ok (sp, out) =>
      if check_complete ∧ (out.length ≠ rawsize ∨ sp ≠ source.length) then none else some out

def pglz_maximum_compressed_size (rawsize total_compressed_size : ℕ) : ℕ :=
  let compressed_size := (rawsize * 9 + 7) / 8
  let compressed_size := compressed_size + 2
  min compressed_size total_compressed_size

/-! ### Items -/

section Decoding

variable {S data : List UInt8} {k N : ℕ}

/-- Before the item at `sp`, with `m` bytes told and `count` items left for the control byte: each
byte of an item tells a byte at least, so `sp` exceeds `m` by no more than the control bytes, and of
those there is one for eight items. -/
def Budget (sp m count : ℕ) : Prop :=
  ∃ ctrls, sp ≤ m + ctrls ∧ 8 * ctrls ≤ m + count

/-- The budget after an item. -/
theorem Budget.item {sp m count : ℕ} (h : Budget sp m (count + 1)) {item : Item UInt8}
    (hcode : Codable item) : Budget (sp + (itemBytes item).length) (m + item.size) count := by
  obtain ⟨ctrls, hsp, hctrls⟩ := h
  obtain ⟨hone, -, hsize⟩ := itemBytes_length hcode
  exact ⟨ctrls, by omega, by omega⟩

/-- **The bytes of the next item are there** as long as the prefix is not complete. -/
theorem Budget.enough {sp m count : ℕ} (h : Budget sp m count) (hcount : count ≤ 8) (hm : m < k)
    {item : Item UInt8} (hcode : Codable item)
    (htotal : sp + (itemBytes item).length ≤ data.length) :
    sp + (itemBytes item).length ≤ pglz_maximum_compressed_size k data.length := by
  obtain ⟨ctrls, hsp, hctrls⟩ := h
  obtain ⟨-, hthree, -⟩ := itemBytes_length hcode
  simp only [pglz_maximum_compressed_size]
  omega

variable {rest l : List UInt8} {sp : ℕ}

theorem drop_take_append {n : ℕ} (h : data.drop sp = l ++ rest) (hn : sp + l.length ≤ n) :
    (data.take n).drop sp = l ++ rest.take (n - sp - l.length) := by
  rw [drop_take, h, take_append, take_of_length_le (by omega)]

/-- Where an item ends in the data. -/
theorem length_of_drop (h : data.drop sp = l ++ rest) (hl : 1 ≤ l.length) :
    sp + l.length ≤ data.length := by
  have hlen := congrArg length h
  rw [length_drop, length_append] at hlen
  omega

theorem drop_after (h : data.drop sp = l ++ rest) : data.drop (sp + l.length) = rest := by
  rw [← drop_drop, h, drop_left]

variable {group : List (Item UInt8)}

/-- **One item**: if there is room, it is read and what it tells is appended, up to the room. -/
theorem itemsLoop_item {item : Item UInt8} {count m : ℕ} (hfits : item.Fits 0 S m)
    (hcode : Codable item) (hm : m < k) (hk : k ≤ S.length) (hgroup : group.length < 8)
    (hdata : data.drop sp = itemBytes item ++ rest) :
    itemsLoop data k (count + 1) sp (S.take m) (UInt8.ofNat (ctrlBits (item :: group))) =
      itemsLoop data k count (sp + (itemBytes item).length) (S.take (min (m + item.size) k))
        (UInt8.ofNat (ctrlBits group)) := by
  obtain ⟨hone, -, -⟩ := itemBytes_length hcode
  have hend := length_of_drop hdata hone
  have hlen := length_take_of_le (l := S) (i := m) (by omega)
  obtain ⟨hbit, hshift⟩ := ctrl_step item hgroup
  rw [itemsLoop, if_pos ⟨by omega, by omega⟩, hshift]
  cases item with
  | literal b =>
    rw [if_neg (fun hc => absurd (hbit.mp hc) (by simp [ctrlBit]))]
    have hb : data.getD sp 0 = b := getD_of_drop hdata hone
    rw [hb, ← hfits.2, take_append_getD hfits.1]
    simp only [Item.size, itemBytes, length_singleton]
    rw [Nat.min_eq_left hm]
  | copy len off =>
    rw [if_pos (hbit.mpr rfl)]
    have hrep : Repeats 0 S m off len := hfits
    obtain ⟨hlow, hhigh, hoff⟩ := hcode
    have hpos := hrep.off_pos
    rw [readTag_tagBytes hdata ⟨hlow, hhigh⟩ hoff]
    dsimp only [itemBytes] at hend ⊢
    rw [if_neg (by omega), doublingCopy_take (hrep.mono (Nat.min_le_left ..)) (by omega)]
    simp only [Item.size]
    congr 2
    omega

/-- The item loop ends when the room is used up. -/
theorem itemsLoop_full {out : List UInt8} (h : out.length = k) (count sp : ℕ) (ctrl : UInt8) :
    itemsLoop data k count sp out ctrl = .ok (sp, out) := by
  cases count with
  | zero => rfl
  | succ count => rw [itemsLoop, if_neg (by omega)]

/-- **A group**: its items are read to the end if what they tell fits into the room, and up to the
end of the room otherwise. -/
theorem itemsLoop_group {count m m' : ℕ} (htells : Tells 0 S m group m')
    (hcode : ∀ item ∈ group, Codable item) (hm : m ≤ k) (hk : k ≤ S.length)
    (hcount : group.length ≤ count) (hlast : group.length = count ∨ rest = []) (height : count ≤ 8)
    (hbudget : Budget sp m count) (hdata : data.drop sp = group.flatMap itemBytes ++ rest)
    (hN : pglz_maximum_compressed_size k data.length ≤ N) :
    ∃ sp', itemsLoop (data.take N) k count sp (S.take m) (UInt8.ofNat (ctrlBits group)) =
        .ok (sp', S.take (min m' k)) ∧ (m' ≤ k → sp' = sp + (group.flatMap itemBytes).length ∧
        Budget sp' m' (count - group.length)) := by
  induction group generalizing count sp m with
  | nil =>
    obtain rfl : m = m' := htells
    refine ⟨sp, ?_, fun _ => ⟨rfl, hbudget⟩⟩
    rw [Nat.min_eq_left hm]
    cases count with
    | zero => rfl
    | succ count =>
      -- a group that is not full is the last one, so the data end here
      have hrest : rest = [] := hlast.resolve_left (Nat.succ_ne_zero count).symm
      rw [hrest] at hdata
      have hend : data.length ≤ sp := drop_eq_nil_iff.mp hdata
      rw [itemsLoop, if_neg]
      rw [length_take]
      omega
  | cons item group ih =>
    obtain ⟨hfits, htells⟩ := htells
    have hitem := hcode item mem_cons_self
    obtain ⟨hone, -, hsize⟩ := itemBytes_length hitem
    have hmore := htells.le
    simp only [length_cons] at hcount hlast ⊢
    obtain ⟨count, rfl⟩ : ∃ c, count = c + 1 := ⟨count - 1, by omega⟩
    have hshort : group.length < 8 := by omega
    by_cases hfull : m = k
    · refine ⟨sp, ?_, fun hle => by omega⟩
      rw [hfull, Nat.min_eq_right (by omega)]
      exact itemsLoop_full (length_take_of_le hk) ..
    · have hlt : m < k := by omega
      rw [flatMap_cons, append_assoc] at hdata
      have henough := hbudget.enough height hlt hitem (length_of_drop hdata hone)
      rw [itemsLoop_item hfits hitem hlt hk hshort
        (drop_take_append hdata (Nat.le_trans henough hN))]
      by_cases hroom : m + item.size ≤ k
      · rw [Nat.min_eq_left hroom]
        rw [flatMap_cons, length_append, ← Nat.add_assoc, Nat.add_sub_add_right]
        exact ih htells (fun i hi => hcode i (mem_cons_of_mem _ hi)) hroom (by omega)
          (hlast.imp_left (by omega)) (by omega) (hbudget.item hitem) (drop_after hdata)
      · rw [Nat.min_eq_right (by omega), Nat.min_eq_right (by omega)]
        exact ⟨_, itemsLoop_full (length_take_of_le hk) .., fun hle => by omega⟩

/-! ### Groups -/

/-- The group loop ends when the room is used up, or at the end of the data. -/
theorem groupsLoop_done {out : List UInt8} {fuel : ℕ} (hfuel : 0 < fuel)
    (h : data.length ≤ sp ∨ out.length = k) : groupsLoop data k fuel sp out = .ok (sp, out) := by
  obtain ⟨fuel, rfl⟩ : ∃ f, fuel = f + 1 := ⟨fuel - 1, by omega⟩
  rw [groupsLoop, if_neg (by omega)]

variable {groups : List (List (Item UInt8))}

/-- The first group is not empty, and full unless it is the last one. -/
theorem Grouped.head (h : Grouped (group :: groups)) :
    1 ≤ group.length ∧ group.length ≤ 8 ∧ (group.length = 8 ∨ groups = []) ∧ Grouped groups := by
  cases groups with
  | nil => exact ⟨h.1, h.2, .inr rfl, trivial⟩
  | cons next groups =>
    obtain ⟨hlen, hrest⟩ := h
    exact ⟨by omega, by omega, .inl hlen, hrest⟩

/-- **The groups**: they are read to the end if what they tell fits into the room, and up to the end
of the room otherwise. -/
theorem groupsLoop_groups (sp : ℕ) {fuel m m' : ℕ} (htells : Tells 0 S m groups.flatten m')
    (hcode : ∀ group ∈ groups, ∀ item ∈ group, Codable item) (hgrouped : Grouped groups)
    (hm : m ≤ k) (hk : k ≤ S.length) (hbudget : groups ≠ [] → Budget sp m 0)
    (hdata : data.drop sp = encode groups) (hN : pglz_maximum_compressed_size k data.length ≤ N)
    (hpos : 0 < fuel) (hfuel : (data.take N).length < sp + fuel) :
    ∃ sp', groupsLoop (data.take N) k fuel sp (S.take m) = .ok (sp', S.take (min m' k)) ∧
      (m' ≤ k → sp' = sp + (encode groups).length) := by
  induction groups generalizing fuel sp m with
  | nil =>
    obtain rfl : m = m' := htells
    have hend : data.length ≤ sp := drop_eq_nil_iff.mp hdata
    refine ⟨sp, ?_, fun _ => rfl⟩
    rw [Nat.min_eq_left hm]
    refine groupsLoop_done hpos (.inl ?_)
    exact Nat.le_trans (length_take_le' ..) hend
  | cons group groups ih =>
    obtain ⟨hne, height, hlast, hgrps⟩ := hgrouped.head
    obtain ⟨item, items, rfl⟩ : ∃ item items, group = item :: items := exists_cons_of_length_pos hne
    rw [flatten_cons] at htells
    obtain ⟨mid, hgroup, hrest⟩ := htells.split
    have hcodes := hcode _ mem_cons_self
    have hitem := hcodes item mem_cons_self
    obtain ⟨hone, -, hsize⟩ := itemBytes_length hitem
    have hmid := hgroup.2.le
    have hm' := hrest.le
    by_cases hfull : m = k
    · refine ⟨sp, ?_, fun hle => by omega⟩
      rw [hfull, Nat.min_eq_right (by omega)]
      exact groupsLoop_done hpos (.inr (length_take_of_le hk))
    have hlt : m < k := by omega
    -- the control byte and the first item are there
    have hctrl : Budget (sp + 1) m 8 := by
      obtain ⟨ctrls, hsp, hctrls⟩ := hbudget (cons_ne_nil _ _)
      exact ⟨ctrls + 1, by omega, by omega⟩
    have hbyte : data.drop sp = [UInt8.ofNat (ctrlBits (item :: items))] ++
          ((item :: items).flatMap itemBytes ++ encode groups) := hdata
    have hitems : data.drop (sp + 1) = (item :: items).flatMap itemBytes ++ encode groups :=
      drop_after hbyte
    have hfirst : data.drop (sp + 1) =
        itemBytes item ++ (items.flatMap itemBytes ++ encode groups) := by
      rw [hitems, flatMap_cons, append_assoc]
    have hthere := hctrl.enough (Nat.le_refl 8) hlt hitem (length_of_drop hfirst hone)
    have hsrc : sp + 1 < (data.take N).length := by
      have := length_of_drop hfirst hone
      rw [length_take]
      omega
    obtain ⟨fuel, rfl⟩ : ∃ f, fuel = f + 1 := ⟨fuel - 1, by omega⟩
    have hread : (data.take N).getD sp 0 = UInt8.ofNat (ctrlBits (item :: items)) :=
      getD_of_drop (drop_take_append hbyte (by simp only [length_singleton]; omega)) (i := 0)
        Nat.one_pos
    rw [groupsLoop, if_pos ⟨by omega, by rw [length_take_of_le (by omega)]; exact hlt⟩, hread]
    obtain ⟨sp', hres, hend⟩ := itemsLoop_group hgroup hcodes hm hk height
      (hlast.imp_right fun h => by rw [h]; rfl) (Nat.le_refl 8) hctrl hitems hN
    rw [hres]
    dsimp only
    by_cases hroom : mid ≤ k
    · obtain ⟨rfl, hleft⟩ := hend hroom
      rw [Nat.min_eq_left hroom]
      have hnext : groups ≠ [] →
          Budget (sp + 1 + ((item :: items).flatMap itemBytes).length) mid 0 := by
        intro hmore
        rwa [hlast.resolve_right hmore] at hleft
      have hless : (data.take N).length <
          sp + 1 + ((item :: items).flatMap itemBytes).length + fuel := by omega
      obtain ⟨sp', hres, hend⟩ := ih _ hrest (fun g hg => hcode g (mem_cons_of_mem _ hg))
        hgrps hroom hnext (drop_after hitems) (by omega) hless
      refine ⟨sp', hres, fun hle => ?_⟩
      rw [hend hle]
      simp only [encode, encodeGroup, flatMap_cons, length_append, length_cons]
      omega
    · rw [Nat.min_eq_right (by omega), Nat.min_eq_right (by omega)]
      exact ⟨sp', groupsLoop_done (by omega) (.inr (length_take_of_le hk)), fun hle => by omega⟩

/-! ### Whole and prefix -/

variable {groups : List (List (Item UInt8))} (htells : Tells 0 S 0 groups.flatten S.length)
  (hcode : ∀ group ∈ groups, ∀ item ∈ group, Codable item) (hgrouped : Grouped groups)

include htells hcode hgrouped

/-- **Prefixes**: the bytes that `pglz_maximum_compressed_size` gives are enough. -/
theorem decompress_prefix (hk : k ≤ S.length) : pglz_decompress
        ((encode groups).take (pglz_maximum_compressed_size k (encode groups).length)) k false =
      some (S.take k) := by
  obtain ⟨sp', hout, -⟩ := groupsLoop_groups 0 htells hcode hgrouped
    (Nat.zero_le k) hk (fun _ => ⟨0, by omega, by omega⟩) drop_zero (Nat.le_refl _)
    (Nat.succ_pos _) (by rw [Nat.zero_add]; exact Nat.lt_succ_self _)
  rw [Nat.min_eq_right hk, take_zero] at hout
  rw [pglz_decompress, hout]
  simp

/-- **The whole**: all bytes are read, and the original is returned. -/
theorem decompress_whole : pglz_decompress (encode groups) S.length true = some S := by
  obtain ⟨sp', hout, hend⟩ := groupsLoop_groups 0 htells
    hcode hgrouped (Nat.zero_le _) (Nat.le_refl _) (fun _ => ⟨0, by omega, by omega⟩)
    drop_zero (Nat.min_le_right ..) (Nat.succ_pos _) (by
      rw [Nat.zero_add]
      exact Nat.lt_succ_self _)
  rw [hend (Nat.le_refl _), List.take_length, take_zero] at hout
  rw [pglz_decompress, hout]
  simp

end Decoding

/-! ### Arbitrary input -/

section Memory

variable (source : List UInt8) (rawsize : ℕ)

/-- `pglz_decompress` with what stands before the destination in memory, as far back as the
references go. -/
def pglz_decompress_after (memory : List UInt8) (check_complete : Bool) : Option (List UInt8) :=
  match groupsLoop source (memory.length + rawsize) (source.length + 1) 0 memory with
  | .error _ => none
  | .ok (sp, out) =>
      if check_complete ∧ (out.length ≠ memory.length + rawsize ∨ sp ≠ source.length) then none
      else some (out.drop memory.length)

/-- What a call has written when it returns, also if it returns -1. -/
def written (memory : List UInt8) : List UInt8 :=
  match groupsLoop source (memory.length + rawsize) (source.length + 1) 0 memory with
  | .error out => out.drop memory.length
  | .ok (_, out) => out.drop memory.length

variable {source rawsize} {memory out : List UInt8} {r : ℕ × List UInt8} {fuel count sp n : ℕ}
  {ctrl : UInt8}

/-! ### The run over the lengths -/

/-- The output of a loop, and the place in the input if it did not return -1. -/
def outcome : Except (List UInt8) (ℕ × List UInt8) → Option ℕ × List UInt8
  | .error out => (none, out)
  | .ok (sp, out) => (some sp, out)

/-- **The output only grows, and not behind the destination**, also up to a return of -1. -/
theorem itemsLoop_grows (source : List UInt8) (count sp : ℕ) (ctrl : UInt8)
    (hle : out.length ≤ rawsize) :
    out <+: (outcome (itemsLoop source rawsize count sp out ctrl)).2 ∧
      (outcome (itemsLoop source rawsize count sp out ctrl)).2.length ≤ rawsize := by
  induction count generalizing sp out ctrl with
  | zero => exact ⟨prefix_rfl, hle⟩
  | succ count ih =>
    obtain ⟨⟨len, off, sp'⟩, htag⟩ : ∃ tag, readTag source sp = tag := ⟨_, rfl⟩
    simp only [itemsLoop, htag]
    split_ifs with hroom hctrl hbad
    · exact ⟨prefix_rfl, hle⟩
    · have hle' : (doublingCopy 0 (min len (rawsize - out.length) + 1) off
          (min len (rawsize - out.length)) out).length ≤ rawsize := by
        rw [length_doublingCopy (by omega) (Nat.lt_succ_self _)]
        omega
      exact ⟨prefix_doublingCopy.trans (ih _ _ hle').1, (ih _ _ hle').2⟩
    · have hle' : (out ++ [source.getD sp 0]).length ≤ rawsize := length_append ▸ hroom.2
      exact ⟨(prefix_append ..).trans (ih _ _ hle').1, (ih _ _ hle').2⟩
    · exact ⟨prefix_rfl, hle⟩

theorem groupsLoop_grows (source : List UInt8) (fuel sp : ℕ) (hle : out.length ≤ rawsize) :
    out <+: (outcome (groupsLoop source rawsize fuel sp out)).2 ∧
      (outcome (groupsLoop source rawsize fuel sp out)).2.length ≤ rawsize := by
  induction fuel generalizing sp out with
  | zero => exact ⟨prefix_rfl, hle⟩
  | succ fuel ih =>
    rw [groupsLoop]
    split_ifs
    · have hitems := itemsLoop_grows source 8 (sp + 1) (source.getD sp 0) hle
      cases hres : itemsLoop source rawsize 8 (sp + 1) out (source.getD sp 0) with
      | error out' =>
        rw [hres] at hitems
        exact hitems
      | ok r =>
        rw [hres] at hitems
        exact ⟨hitems.1.trans (ih _ hitems.2).1, (ih _ hitems.2).2⟩
    · exact ⟨prefix_rfl, hle⟩

/-- An outcome behind some memory. -/
def behind (memory : List UInt8) :
    Except (List UInt8) (ℕ × List UInt8) → Except (List UInt8) (ℕ × List UInt8)
  | .error out => .error (memory ++ out)
  | .ok (sp, out) => .ok (sp, memory ++ out)

/-- **No input makes the decoder write behind the destination**, whatever its references read and
also if it returns -1. A call that succeeds returns what it has written, and with `check_complete`
it has filled the destination. -/
theorem decompress_bounded (source memory : List UInt8) (rawsize : ℕ) (check_complete : Bool) :
    (written source rawsize memory).length ≤ rawsize ∧
      ∀ out, pglz_decompress_after source rawsize memory check_complete = some out →
        out = written source rawsize memory ∧ (check_complete = true → out.length = rawsize) := by
  have hle := (groupsLoop_grows source (source.length + 1) 0
    (Nat.le_add_right memory.length rawsize)).2
  rw [written, pglz_decompress_after]
  cases hres : groupsLoop source (memory.length + rawsize) (source.length + 1) 0 memory with
  | error out =>
    simp only [hres, outcome] at hle
    exact ⟨by rw [length_drop]; omega, by simp⟩
  | ok r =>
    simp only [hres, outcome] at hle
    refine ⟨by rw [length_drop]; omega, fun out hout => ?_⟩
    dsimp only at hout
    split_ifs at hout with hbad
    obtain rfl := Option.some.inj hout
    refine ⟨rfl, fun hcheck => ?_⟩
    have hfull := (not_or.mp (not_and.mp hbad hcheck)).1
    rw [length_drop]
    omega

end Memory

end Pglz

end FdPostgres
