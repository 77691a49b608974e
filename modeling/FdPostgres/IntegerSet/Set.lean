import FdPostgres.IntegerSet.Simple8b
import FdPostgres.Lib.BinarySearch

/-!
# Integer Sets

The integer sets of `integerset.c`. Values are added in increasing order. New values go to a
buffer; when it is full, they are packed into the items of the leaves of a B-tree that grows at
its right end only. A lookup searches the buffer or walks down the tree; an iteration walks the
leaves and then the buffer.

Nodes are numbered on each level in the order of their allocation, and a pointer to a node is
its level and number. Values are numbers below `2 ^ 64`, and `num_entries` wraps around as a
`uint64` does.

* `intset_create`, `intset_add_member`, `intset_is_member`, `intset_num_entries`.
* `intset_begin_iterate`, `intset_iterate_next`.

The memory context and the count of used memory are left out.
-/

namespace FdPostgres

open Function BinarySearch

def MAX_INTERNAL_ITEMS : ℕ := 64

def MAX_LEAF_ITEMS : ℕ := 64

def MAX_TREE_LEVELS : ℕ := 11

def MAX_VALUES_PER_LEAF_ITEM : ℕ := 1 + SIMPLE8B_MAX_VALUES_PER_CODEWORD

def MAX_BUFFERED_VALUES : ℕ := MAX_VALUES_PER_LEAF_ITEM * 2

/-- `leaf_item`: a first value, and the values that follow it packed into one word. -/
structure LeafItem where
  first : ℕ
  codeword : ℕ
  deriving Repr, DecidableEq, Inhabited

/-- `intset_leaf_node`: its items in order, and the leaf to its right. -/
structure LeafNode where
  next : Option ℕ
  items : List LeafItem
  deriving Repr, DecidableEq

/-- A pointer to a node. -/
structure NodePtr where
  level : ℕ
  idx : ℕ
  deriving Repr, DecidableEq, Inhabited

/-- `intset_internal_node`; its level is that of the pointer to it. -/
structure InternalNode where
  values : List ℕ
  downlinks : List NodePtr
  deriving Repr, DecidableEq

/-- What `iter_values` points to. -/
inductive IterValues where
  | null
  | iter_values_buf
  | buffered_values
  deriving Repr, DecidableEq

/-- `IntegerSet`, with the leaves and the inner nodes that it points to, by level and number. -/
structure IntegerSet where
  num_entries : ℕ
  highest_value : ℕ
  num_levels : ℕ
  root : Option NodePtr
  rightmost_nodes : ℕ → Option NodePtr
  leftmost_leaf : Option ℕ
  buffered_values : List ℕ
  iter_active : Bool
  iter_values : IterValues
  iter_num_values : ℕ
  iter_valueno : ℕ
  iter_node : Option ℕ
  iter_itemno : ℕ
  iter_values_buf : List ℕ
  leaves : ℕ → LeafNode
  numLeaves : ℕ
  nodes : ℕ → ℕ → InternalNode
  numNodes : ℕ → ℕ

/-- The errors of the operations, and the use of a null pointer. -/
inductive IntsetError where
  | iterationInProgress
  | outOfOrder
  | tooManyLevels
  | nullPointer
  deriving Repr, DecidableEq

/-- The texts of the errors. -/
def IntsetError.message : IntsetError → String
  | iterationInProgress =>
      "cannot add new values to integer set while iteration is in progress"
  | outOfOrder => "cannot add value to integer set out of order"
  | tooManyLevels => "could not expand integer set, maximum number of levels reached"
  | nullPointer => ""

def intset_create : IntegerSet where
  num_entries := 0
  highest_value := 0
  num_levels := 0
  root := none
  rightmost_nodes := fun _ => none
  leftmost_leaf := none
  buffered_values := []
  iter_active := false
  iter_values := .null
  iter_num_values := 0
  iter_valueno := 0
  iter_node := none
  iter_itemno := 0
  iter_values_buf := []
  leaves := fun _ => ⟨none, []⟩
  numLeaves := 0
  nodes := fun _ _ => ⟨[], []⟩
  numNodes := fun _ => 0

variable (intset : IntegerSet)

def intset_num_entries : ℕ := intset.num_entries

/-! ### Adding values -/

/-- `intset_new_internal_node`, with its only item, as the rightmost node of its level. -/
def newInternalNode (level : ℕ) (node : InternalNode) : IntegerSet :=
  { intset with
    nodes := update intset.nodes level
      (update (intset.nodes level) (intset.numNodes level) node)
    numNodes := update intset.numNodes level (intset.numNodes level + 1)
    rightmost_nodes := update intset.rightmost_nodes level
      (some ⟨level, intset.numNodes level⟩) }

/-- The first value on a page. -/
def firstValue (page : NodePtr) : ℕ :=
  if page.level = 0 then ((intset.leaves page.idx).items.getD 0 default).first
  else (intset.nodes page.level page.idx).values.getD 0 0

/-- The part of `intset_update_upper` that creates a new root. -/
def newRoot (level : ℕ) : Except IntsetError Unit × IntegerSet :=
  if intset.num_levels = MAX_TREE_LEVELS then (.error .tooManyLevels, intset)
  else
    match intset.root with
    | none => (.error .nullPointer, intset)
    | some oldroot =>
        (.ok (), { newInternalNode intset level ⟨[firstValue intset oldroot], [oldroot]⟩ with
          num_levels := intset.num_levels + 1
          root := some ⟨level, intset.numNodes level⟩ })

/-- A downlink at the end of an internal node. -/
def addDownlink (parent : NodePtr) (child : NodePtr) (child_key : ℕ) : IntegerSet :=
  let node := intset.nodes parent.level parent.idx
  { intset with
    nodes := update intset.nodes parent.level
      (update (intset.nodes parent.level) parent.idx
        ⟨node.values ++ [child_key], node.downlinks ++ [child]⟩) }

/-- `intset_update_upper`. The first argument bounds the recursion; a level that high is an
error of `newRoot` already. -/
def intset_update_upper : ℕ → IntegerSet → ℕ → NodePtr → ℕ → Except IntsetError Unit × IntegerSet
  | 0, intset, _, _, _ => (.error .tooManyLevels, intset)
  | fuel + 1, intset, level, child, child_key =>
      match if level ≥ intset.num_levels then newRoot intset level else (.ok (), intset) with
      | (.error e, intset) => (.error e, intset)
      | (.ok (), intset) =>
          match intset.rightmost_nodes level with
          | none => (.error .nullPointer, intset)
          | some parent =>
              if (intset.nodes parent.level parent.idx).values.length < MAX_INTERNAL_ITEMS then
                (.ok (), addDownlink intset parent child child_key)
              else
                intset_update_upper fuel (newInternalNode intset level ⟨[child_key], [child]⟩)
                  (level + 1) ⟨level, intset.numNodes level⟩ child_key

/-- `intset_new_leaf_node`, as the rightmost leaf. -/
def newLeaf : IntegerSet :=
  { intset with
    leaves := update intset.leaves intset.numLeaves ⟨none, []⟩
    numLeaves := intset.numLeaves + 1
    rightmost_nodes := update intset.rightmost_nodes 0 (some ⟨0, intset.numLeaves⟩) }

/-- The first leaf of an empty tree, which is also the root. -/
def firstLeaf : IntegerSet :=
  { newLeaf intset with
    root := some ⟨0, intset.numLeaves⟩
    leftmost_leaf := some intset.numLeaves
    num_levels := 1 }

/-- A new leaf behind the rightmost one. -/
def appendLeaf (old_leaf : ℕ) : IntegerSet :=
  { newLeaf intset with
    leaves := update (newLeaf intset).leaves old_leaf
      { (newLeaf intset).leaves old_leaf with next := some intset.numLeaves } }

/-- A new leaf behind the rightmost one, linked to the tree. -/
def linkLeaf (old_leaf key : ℕ) : Except IntsetError Unit × IntegerSet :=
  intset_update_upper (MAX_TREE_LEVELS + 1) (appendLeaf intset old_leaf) 1 ⟨0, intset.numLeaves⟩
    key

/-- An item at the end of a leaf. -/
def addItem (leaf : ℕ) (item : LeafItem) : IntegerSet :=
  { intset with
    leaves := update intset.leaves leaf
      { intset.leaves leaf with items := (intset.leaves leaf).items ++ [item] } }

/-- An item added to the rightmost leaf, or to a new leaf if that is full; the result has the
leaf. -/
def insertItem (leaf : ℕ) (item : LeafItem) : Except IntsetError ℕ × IntegerSet :=
  if (intset.leaves leaf).items.length ≥ MAX_LEAF_ITEMS then
    match linkLeaf intset leaf item.first with
    | (.error e, intset) => (.error e, intset)
    | (.ok (), linked) => (.ok intset.numLeaves, addItem linked intset.numLeaves item)
  else (.ok leaf, addItem intset leaf item)

/-- The loop of `intset_flush_buffered_values`: `values` are those not packed yet, and the
result has those that remain. -/
def flushLoop : ℕ → IntegerSet → ℕ → List ℕ → Except IntsetError (List ℕ) × IntegerSet
  | 0, intset, _, values => (.ok values, intset)
  | fuel + 1, intset, leaf, values =>
      if values.length ≥ MAX_VALUES_PER_LEAF_ITEM then
        let first := values.getD 0 0
        let encoded := simple8b_encode (values.drop 1) first
        match insertItem intset leaf ⟨first, encoded.1⟩ with
        | (.error e, intset) => (.error e, intset)
        | (.ok leaf, intset) => flushLoop fuel intset leaf (values.drop (1 + encoded.2))
      else (.ok values, intset)

def intset_flush_buffered_values : Except IntsetError Unit × IntegerSet :=
  let intset := if intset.rightmost_nodes 0 = none then firstLeaf intset else intset
  match intset.rightmost_nodes 0 with
  | none => (.error .nullPointer, intset)
  | some leaf =>
      match flushLoop intset.buffered_values.length intset leaf.idx intset.buffered_values with
      | (.error e, intset) => (.error e, intset)
      | (.ok values, intset) => (.ok (), { intset with buffered_values := values })

/-- A value at the end of the buffer. -/
def bufferValue (x : ℕ) : IntegerSet :=
  { intset with
    buffered_values := intset.buffered_values ++ [x]
    num_entries := (intset.num_entries + 1) % 2 ^ 64
    highest_value := x }

def intset_add_member (x : ℕ) : Except IntsetError Unit × IntegerSet :=
  if intset.iter_active then (.error .iterationInProgress, intset)
  else if x ≤ intset.highest_value ∧ intset.num_entries > 0 then (.error .outOfOrder, intset)
  else if intset.buffered_values.length ≥ MAX_BUFFERED_VALUES then
    match intset_flush_buffered_values intset with
    | (.error e, intset) => (.error e, intset)
    | (.ok (), intset) => (.ok (), bufferValue intset x)
  else (.ok (), bufferValue intset x)

/-! ### Looking up values -/

/-- The comparison of the binary searches: with `nextkey`, the search goes past an equal key. -/
def goesRight (item key : ℕ) (nextkey : Bool) : Bool :=
  if nextkey then decide (item ≥ key) else decide (item > key)

def intset_binsrch_uint64 (item : ℕ) (arr : List ℕ) (nextkey : Bool) : ℕ :=
  partitionPoint (fun mid => goesRight item (arr.getD mid 0) nextkey) arr.length 0 arr.length

def intset_binsrch_leaf (item : ℕ) (arr : List LeafItem) (nextkey : Bool) : ℕ :=
  partitionPoint (fun mid => goesRight item (arr.getD mid default).first nextkey) arr.length 0
    arr.length

/-- The walk down the tree from a node of level `level`; `none` when the value is below all
keys. -/
def descend (intset : IntegerSet) (x : ℕ) : ℕ → NodePtr → Option NodePtr
  | 0, node => some node
  | level + 1, node =>
      let n := intset.nodes node.level node.idx
      let itemno := intset_binsrch_uint64 x n.values true
      if itemno = 0 then none
      else descend intset x level (n.downlinks.getD (itemno - 1) default)

/-- The search on a leaf page. -/
def leafContains (leaf : LeafNode) (x : ℕ) : Bool :=
  let itemno := intset_binsrch_leaf x leaf.items true
  if itemno = 0 then false
  else
    let item := leaf.items.getD (itemno - 1) default
    item.first == x || simple8b_contains item.codeword x item.first

def intset_is_member (x : ℕ) : Bool :=
  if intset.buffered_values.length > 0 ∧ x ≥ intset.buffered_values.getD 0 0 then
    let itemno := intset_binsrch_uint64 x intset.buffered_values false
    if itemno ≥ intset.buffered_values.length then false
    else intset.buffered_values.getD itemno 0 == x
  else
    match intset.root with
    | none => false
    | some node =>
        match descend intset x (intset.num_levels - 1) node with
        | none => false
        | some leaf => leafContains (intset.leaves leaf.idx) x

/-! ### Iterating -/

def intset_begin_iterate : IntegerSet :=
  { intset with
    iter_active := true
    iter_node := intset.leftmost_leaf
    iter_itemno := 0
    iter_valueno := 0
    iter_num_values := 0
    iter_values := .iter_values_buf }

/-- The array that `iter_values` points to. -/
def iterArray : List ℕ :=
  match intset.iter_values with
  | .null => []
  | .iter_values_buf => intset.iter_values_buf
  | .buffered_values => intset.buffered_values

/-- The next item of a leaf, decoded. -/
def decodeItem (item : LeafItem) : IntegerSet :=
  let values := item.first :: simple8b_decode item.codeword item.first
  { intset with
    iter_itemno := intset.iter_itemno + 1
    iter_values_buf := values
    iter_num_values := values.length
    iter_valueno := 0 }

/-- One round of the loop of `intset_iterate_next`: the answer of the function, or the state for
the next round. -/
def iterateRound : Option (Bool × ℕ) × IntegerSet :=
  if intset.iter_valueno < intset.iter_num_values then
    (some (true, (iterArray intset).getD intset.iter_valueno 0),
      { intset with iter_valueno := intset.iter_valueno + 1 })
  else
    match intset.iter_node with
    | some node =>
        if intset.iter_itemno < (intset.leaves node).items.length then
          (none, decodeItem intset ((intset.leaves node).items.getD intset.iter_itemno default))
        else
          (none, { intset with iter_node := (intset.leaves node).next, iter_itemno := 0 })
    | none =>
        if intset.iter_values = .iter_values_buf then
          (none, { intset with
            iter_values := .buffered_values
            iter_num_values := intset.buffered_values.length
            iter_valueno := 0 })
        else (some (false, 0), { intset with iter_active := false })

/-- The loop of `intset_iterate_next`. -/
def iterateLoop : ℕ → IntegerSet → Option (Bool × ℕ) × IntegerSet
  | 0, intset => (none, intset)
  | fuel + 1, intset =>
      match iterateRound intset with
      | (some answer, intset) => (some answer, intset)
      | (none, intset) => iterateLoop fuel intset

/-- `intset_iterate_next`: whether there was another value, and the value. There are at most a
round for each leaf, one to decode an item or to turn to the buffer, and one to answer. -/
def intset_iterate_next : Option (Bool × ℕ) × IntegerSet :=
  iterateLoop (intset.numLeaves + 4) intset

end FdPostgres
