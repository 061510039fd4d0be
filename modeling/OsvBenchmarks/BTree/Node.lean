import OsvBenchmarks.Library.Prefix
import Mathlib.Algebra.Ring.Nat
import Mathlib.Order.Fin.Basic

/-!
One page of the tree as the source lays it out: slots that grow from the front,
fences, keys and payloads on a heap that grows from the back. The slot array is
the list of its first `count` elements, so `count` is its length; `heap` is the
page by byte address. u16 and unsigned arithmetic wraps where the source's does.
-/
namespace BTree

abbrev u8 := Fin 256

instance u8_nonempty : NeZero 256 := ⟨by decide⟩
abbrev Key := List u8
abbrev Payload := List u8

def pageSize : ℕ := 4096
/-- sizeof(BTreeNodeHeader), sizeof(Slot), sizeof(PID) -/
def headerSize : ℕ := 104
def slotSize : ℕ := 10
def pidSize : ℕ := 8
def hintCount : ℕ := 16
/-- merge nodes more empty -/
def underFullSize : ℕ := pageSize / 2 + pageSize / 4
def noNeighbour : ℕ := 2 ^ 64 - 1
def maxKVSize : ℕ := (pageSize - headerSize - 2 * slotSize) / 4

def add16 (a b : ℕ) : ℕ := (a + b) % 2 ^ 16
def sub16 (a b : ℕ) : ℕ := (a + 2 ^ 16 - b % 2 ^ 16) % 2 ^ 16
def sub32 (a b : ℕ) : ℕ := (a + 2 ^ 32 - b % 2 ^ 32) % 2 ^ 32

abbrev Heap := ℕ → u8

def bytes (heap : Heap) (offset len : ℕ) : List u8 := (List.range len).map fun i => heap (offset + i)

/-- custom_memcpy into the page -/
def write (heap : Heap) (offset : ℕ) (data : List u8) : Heap := fun a =>
  if offset ≤ a ∧ a < offset + data.length then data.getD (a - offset) 0 else heap a

/-- custom_memcmp of the first `n` bytes -/
def memcmp (a b : List u8) (n : ℕ) : Ordering :=
  if a.take n < b.take n then .lt else if b.take n < a.take n then .gt else .eq

/-- A PID in memory, little endian. -/
def pidBytes (pid : ℕ) : List u8 :=
  (List.range pidSize).map fun i => Fin.ofNat 256 (pid / 256 ^ i)

def loadPID (bs : List u8) : ℕ := bs.foldr (fun b acc => b.val + 256 * acc) 0

/-- Get order-preserving head of key -/
def head : Key → ℕ
  | [] => 0
  | [a] => a.val * 2 ^ 24
  | [a, b] => (a.val * 2 ^ 8 + b.val) * 2 ^ 16
  | [a, b, c] => (a.val * 2 ^ 8 + b.val) * 2 ^ 16 + c.val * 2 ^ 8
  | a :: b :: c :: d :: _ => a.val * 2 ^ 24 + b.val * 2 ^ 16 + c.val * 2 ^ 8 + d.val

structure FenceKeySlot where
  offset : ℕ
  len : ℕ
  deriving Repr, DecidableEq, Inhabited

structure Slot where
  offset : ℕ
  keyLen : ℕ
  payloadLen : ℕ
  head : ℕ
  deriving Repr, DecidableEq, Inhabited

/-- `link` is the union of upperInnerNode (inner) and nextLeafNode (leaf). -/
structure BTreeNode where
  link : ℕ
  lowerFence : FenceKeySlot
  upperFence : FenceKeySlot
  isLeaf : Bool
  spaceUsed : ℕ
  dataOffset : ℕ
  prefixLen : ℕ
  hint : List ℕ
  slot : List Slot
  heap : Heap

structure SeparatorInfo where
  len : ℕ
  slot : ℕ
  isTruncated : Bool
  deriving Repr, DecidableEq

/-- slot[i] = s, where i is at most the number of slots in use -/
def setSlot (slots : List Slot) (i : ℕ) (s : Slot) : List Slot :=
  slots.take i ++ s :: slots.drop (i + 1)

/-- memmove(slot + i + 1, slot + i, ...): slot i stays in its place as well. -/
def shiftUp (slots : List Slot) (i : ℕ) : List Slot :=
  slots.take i ++ slots.getD i default :: slots.drop i

namespace BTreeNode

/-- The constructor. What it leaves uninitialised is 0 here. -/
def new (isLeaf : Bool) : BTreeNode where
  link := noNeighbour
  lowerFence := ⟨0, 0⟩
  upperFence := ⟨0, 0⟩
  isLeaf := isLeaf
  spaceUsed := 0
  dataOffset := pageSize
  prefixLen := 0
  hint := List.replicate hintCount 0
  slot := []
  heap := fun _ => 0

variable (n : BTreeNode)

def count : ℕ := n.slot.length
def isInner : Bool := !n.isLeaf
def hasRightNeighbour : Bool := n.link != noNeighbour
def hasLowerFence : Bool := n.lowerFence.len != 0

def getLowerFence : Key := bytes n.heap n.lowerFence.offset n.lowerFence.len
def getUpperFence : Key := bytes n.heap n.upperFence.offset n.upperFence.len
def getPrefix : Key := bytes n.heap n.lowerFence.offset n.prefixLen

def slotAt (i : ℕ) : Slot := n.slot.getD i default

/-- The address right after the slot array. -/
def slotEnd : ℕ := headerSize + slotSize * n.count

def freeSpace : ℕ := sub32 n.dataOffset n.slotEnd
def freeSpaceAfterCompaction : ℕ := sub32 pageSize (n.slotEnd + n.spaceUsed)

def spaceNeeded (keyLen payloadLen : ℕ) : ℕ :=
  slotSize + sub32 keyLen n.prefixLen + payloadLen

def hasSpaceFor (keyLen payloadLen : ℕ) : Bool :=
  n.spaceNeeded keyLen payloadLen ≤ n.freeSpaceAfterCompaction

def keyOf (s : Slot) : Key := bytes n.heap s.offset s.keyLen
def payloadOf (s : Slot) : Payload := bytes n.heap (s.offset + s.keyLen) s.payloadLen

def getKey (slotId : ℕ) : Key := n.keyOf (n.slotAt slotId)
def getPayload (slotId : ℕ) : Payload := n.payloadOf (n.slotAt slotId)
def getChild (slotId : ℕ) : ℕ :=
  loadPID (bytes n.heap ((n.slotAt slotId).offset + (n.slotAt slotId).keyLen) pidSize)

/-- custom_memcpy(getPayload(slotId).data(), ...) -/
def setPayload (slotId : ℕ) (data : Payload) : BTreeNode :=
  { n with heap := write n.heap ((n.slotAt slotId).offset + (n.slotAt slotId).keyLen) data }

def makeHint : BTreeNode :=
  let dist := n.count / (hintCount + 1)
  { n with hint := (List.range hintCount).map fun i => (n.slotAt (dist * (i + 1))).head }

def updateHint (slotId : ℕ) : BTreeNode :=
  let dist := n.count / (hintCount + 1)
  let start :=
    if n.count > hintCount * 2 + 1 ∧ (n.count - 1) / (hintCount + 1) = dist ∧ slotId / dist > 1
    then slotId / dist - 1 else 0
  { n with hint := (List.range hintCount).map fun i =>
      if start ≤ i then (n.slotAt (dist * (i + 1))).head else n.hint.getD i 0 }

def searchHint (keyHead lower upper : ℕ) : ℕ × ℕ :=
  if n.count > hintCount * 2 then
    let dist := upper / (hintCount + 1)
    let pos := n.hint.findIdx fun h => h ≥ keyHead
    let pos2 := pos + (n.hint.drop pos).findIdx fun h => h ≠ keyHead
    (pos * dist, if pos2 < hintCount then (pos2 + 1) * dist else upper)
  else (lower, upper)

/-- The binary search of lowerBound; the first argument bounds its turns. -/
def search (key : Key) (keyHead : ℕ) : ℕ → ℕ → ℕ → ℕ × Bool
  | 0, lower, _ => (lower, false)
  | turns + 1, lower, upper =>
    if lower < upper then
      let mid := (upper - lower) / 2 + lower
      if keyHead < (n.slotAt mid).head then search key keyHead turns lower mid
      else if keyHead > (n.slotAt mid).head then search key keyHead turns (mid + 1) upper
      else
        match memcmp key (n.getKey mid) (min key.length (n.slotAt mid).keyLen) with
        | .lt => search key keyHead turns lower mid
        | .gt => search key keyHead turns (mid + 1) upper
        | .eq =>
          if key.length < (n.slotAt mid).keyLen then search key keyHead turns lower mid
          else if key.length > (n.slotAt mid).keyLen then search key keyHead turns (mid + 1) upper
          else (mid, true)
    else (lower, false)

/-- lower bound search: the slot id, and whether there is an exact match -/
def lowerBound (skey : Key) : ℕ × Bool :=
  match memcmp skey n.getPrefix (min skey.length n.prefixLen) with
  | .lt => (0, false)
  | .gt => (n.count, false)
  | .eq =>
    if skey.length < n.prefixLen then (0, false)
    else
      let key := skey.drop n.prefixLen
      let (lower, upper) := n.searchHint (head key) 0 n.count
      n.search key (head key) n.count lower upper

/-- store key/value pair at slotId -/
def storeKeyValue (slotId : ℕ) (skey : Key) (payload : Payload) : BTreeNode :=
  let key := skey.drop n.prefixLen
  let space := key.length + payload.length
  let dataOffset := sub16 n.dataOffset space
  { n with
    dataOffset := dataOffset
    spaceUsed := add16 n.spaceUsed space
    slot := setSlot n.slot slotId ⟨dataOffset, key.length, payload.length, head key⟩
    heap := write (write n.heap dataOffset key) (dataOffset + key.length) payload }

def copyKeyValue (srcSlot : ℕ) (dst : BTreeNode) (dstSlot : ℕ) : BTreeNode :=
  dst.storeKeyValue dstSlot (n.getPrefix ++ n.getKey srcSlot) (n.getPayload srcSlot)

/-- One turn of copyKeyValueRange where the prefix grows by `diff`. -/
def copyTail (diff srcSlot : ℕ) (dst : BTreeNode) (dstSlot : ℕ) : BTreeNode :=
  let s := n.slotAt srcSlot
  let newKeyLen := sub32 s.keyLen diff
  let space := newKeyLen + s.payloadLen
  let dataOffset := sub16 dst.dataOffset space
  let data := bytes n.heap (s.offset + diff) space
  { dst with
    dataOffset := dataOffset
    spaceUsed := add16 dst.spaceUsed space
    slot := setSlot dst.slot dstSlot ⟨dataOffset, newKeyLen, s.payloadLen, head (data.take newKeyLen)⟩
    heap := write dst.heap dataOffset data }

def copyKeyValueRange (dst : BTreeNode) (dstSlot srcSlot srcCount : ℕ) : BTreeNode :=
  (List.range srcCount).foldl
    (fun dst i =>
      if n.prefixLen ≤ dst.prefixLen then
        n.copyTail (dst.prefixLen - n.prefixLen) (srcSlot + i) dst (dstSlot + i)
      else n.copyKeyValue (srcSlot + i) dst (dstSlot + i))
    dst

/-- insertFence for the lower and then for the upper fence, and the common prefix -/
def setFences (lower upper : Key) : BTreeNode :=
  let lowerOffset := sub16 n.dataOffset lower.length
  let upperOffset := sub16 lowerOffset upper.length
  { n with
    lowerFence := ⟨lowerOffset, lower.length⟩
    upperFence := ⟨upperOffset, upper.length⟩
    dataOffset := upperOffset
    spaceUsed := add16 (add16 n.spaceUsed lower.length) upper.length
    prefixLen := Prefix.common lower upper
    heap := write (write n.heap lowerOffset lower) upperOffset upper }

def compactify : BTreeNode :=
  let tmp := (new n.isLeaf).setFences n.getLowerFence n.getUpperFence
  let tmp := n.copyKeyValueRange tmp 0 0 n.count
  ({ tmp with link := n.link } : BTreeNode).makeHint

/-- insert key/value pair -/
def insertInPage (key : Key) (payload : Payload) : BTreeNode :=
  let n := if n.spaceNeeded key.length payload.length > n.freeSpace then n.compactify else n
  let slotId := (n.lowerBound key).1
  let n := { n with slot := shiftUp n.slot slotId }
  (n.storeKeyValue slotId key payload).updateHint slotId

def removeSlot (slotId : ℕ) : BTreeNode :=
  { n with
    spaceUsed := sub16 (sub16 n.spaceUsed (n.slotAt slotId).keyLen) (n.slotAt slotId).payloadLen
    slot := n.slot.eraseIdx slotId : BTreeNode }.makeHint

/-- merge right node into this node; the page id is this node's -/
def mergeNodes (pid : ℕ) (slotId : ℕ) (parent right : BTreeNode) :
    Bool × BTreeNode × BTreeNode :=
  if !n.isLeaf then (true, n, parent)
  else
    let tmp := (new n.isLeaf).setFences n.getLowerFence right.getUpperFence
    let leftGrow := sub32 n.prefixLen tmp.prefixLen * n.count
    let rightGrow := sub32 right.prefixLen tmp.prefixLen * right.count
    let spaceUpperBound :=
      (n.spaceUsed + right.spaceUsed + (headerSize + slotSize * (n.count + right.count)) +
        leftGrow + rightGrow) % 2 ^ 32
    if spaceUpperBound > pageSize then (false, n, parent)
    else
      let tmp := n.copyKeyValueRange tmp 0 0 n.count
      let tmp := right.copyKeyValueRange tmp n.count 0 right.count
      let parent := (parent.setPayload (slotId + 1) (pidBytes pid)).removeSlot slotId
      (true, { tmp.makeHint with link := right.link }, parent)

/-- The left half (it replaces this node), the right half and the parent. -/
def splitNode (leftPID newPID : ℕ) (parent : BTreeNode) (sepSlot : ℕ) (sep : Key) :
    BTreeNode × BTreeNode × BTreeNode :=
  let nodeLeft := (new n.isLeaf).setFences n.getLowerFence sep
  let nodeRight := (new n.isLeaf).setFences sep n.getUpperFence
  let oldParentSlot := (parent.lowerBound sep).1
  let parent :=
    if oldParentSlot = parent.count then { parent with link := newPID }
    else parent.setPayload oldParentSlot (pidBytes newPID)
  let parent := parent.insertInPage sep (pidBytes leftPID)
  if n.isLeaf then
    let nodeLeft := n.copyKeyValueRange nodeLeft 0 0 (sepSlot + 1)
    let nodeRight := n.copyKeyValueRange nodeRight 0 nodeLeft.count (n.count - nodeLeft.count)
    ({ nodeLeft with link := newPID : BTreeNode }.makeHint,
      { nodeRight with link := n.link : BTreeNode }.makeHint, parent)
  else
    -- in inner node split, separator moves to parent
    let nodeLeft := n.copyKeyValueRange nodeLeft 0 0 sepSlot
    let nodeRight :=
      n.copyKeyValueRange nodeRight 0 (nodeLeft.count + 1) (n.count - nodeLeft.count - 1)
    ({ nodeLeft with link := n.getChild nodeLeft.count : BTreeNode }.makeHint,
      { nodeRight with link := n.link : BTreeNode }.makeHint, parent)

def commonPrefix (slotA slotB : ℕ) : ℕ := Prefix.common (n.getKey slotA) (n.getKey slotB)

/-- find good separator slot -/
def bestSlot (splitOrdered : Bool) : ℕ :=
  if splitOrdered then n.count - 2
  else if n.count > 16 then
    let lower := n.count / 2 - n.count / 16
    let upper := n.count / 2
    let bestPrefixLen := n.commonPrefix lower 0
    if bestPrefixLen ≠ n.commonPrefix (upper - 1) 0 then
      lower + 1 + (List.range' (lower + 1) (upper - (lower + 1))).findIdx
        fun slot => n.commonPrefix slot 0 ≠ bestPrefixLen
    else lower
  else (n.count - 1) / 2

def findSeparator (splitOrdered : Bool) : SeparatorInfo :=
  if n.isInner then
    -- inner nodes are split in the middle
    let slotId := n.count / 2
    ⟨n.prefixLen + (n.slotAt slotId).keyLen, slotId, false⟩
  else
    let bestSlot := n.bestSlot splitOrdered
    -- try to truncate separator
    let common := n.commonPrefix bestSlot (bestSlot + 1)
    if bestSlot + 1 < n.count ∧ (n.slotAt bestSlot).keyLen > common ∧
        (n.slotAt (bestSlot + 1)).keyLen > common + 1 then
      ⟨n.prefixLen + common + 1, bestSlot, true⟩
    else ⟨n.prefixLen + (n.slotAt bestSlot).keyLen, bestSlot, false⟩

def getSep (info : SeparatorInfo) : Key :=
  let s := n.slotAt (info.slot + if info.isTruncated then 1 else 0)
  n.getPrefix ++ bytes n.heap s.offset (info.len - n.prefixLen)

def lookupInner (key : Key) : ℕ :=
  let pos := (n.lowerBound key).1
  if pos = n.count then n.link else n.getChild pos

end BTreeNode

end BTree
