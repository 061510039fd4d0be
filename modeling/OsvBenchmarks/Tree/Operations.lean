import OsvBenchmarks.BTree.Page
import Mathlib.Logic.Function.Basic

/-!
The operations of the tree, run one at a time: page allocation, the descents,
split and merge with their restarts, scans. The page locks are left out here, so
are the exceptions they throw. A loop of the source has a bound on its turns; an
operation that uses it up spins.
-/
namespace BTree

inductive Outcome (α : Type) where
  | spins
  /-- exit(EXIT_FAILURE) of allocPage -/
  | exits
  /-- ucache::assert_crash -/
  | crashes
  | done (value : α)

namespace Outcome
variable {α β : Type}

def bind : Outcome α → (α → Outcome β) → Outcome β
  | spins, _ => spins
  | exits, _ => exits
  | crashes, _ => crashes
  | done a, f => f a

instance : Monad Outcome where
  pure := done
  bind := bind

end Outcome

/-- The pages by page id, the meta data page (`roots`) and the buffer manager's counters. -/
structure Store where
  page : ℕ → BTreeNode
  roots : ℕ → ℕ
  allocCount : ℕ
  virtCount : ℕ

def metadataPageId : ℕ := 0

namespace Store
variable (s : Store)

def put (pid : ℕ) (n : BTreeNode) : Store := { s with page := Function.update s.page pid n }

def setRoot (slotId root : ℕ) : Store := { s with roots := Function.update s.roots slotId root }

def isValidPID (pid : ℕ) : Bool := pid < s.virtCount

def allocPage : Outcome (ℕ × Store) :=
  if s.allocCount ≥ s.virtCount then .exits
  else .done (s.allocCount, { s with allocCount := s.allocCount + 1 })

/-- Where a descent stands: the node, its parent and its place in the parent. -/
structure Position where
  parent : ℕ
  pos : ℕ
  node : ℕ

/-- The loop of every descent; it stops at a leaf or at `toSplit`. -/
def descend (key : Key) (toSplit : Option ℕ) : ℕ → Position → Outcome Position
  | 0, _ => .spins
  | fuel + 1, at_ =>
    if !s.isValidPID at_.node then .crashes
    else
      let n := s.page at_.node
      if n.isInner ∧ some at_.node ≠ toSplit then
        let pos := (n.lowerBound key).1
        let next := if pos = n.count then n.link else n.getChild pos
        descend key toSplit fuel ⟨at_.node, pos, next⟩
      else .done at_

end Store

structure Tree where
  slotId : ℕ
  splitOrdered : Bool

namespace Tree

/-- The constructor; `slotId` is the value of btreeslotcounter. -/
def create (slotId : ℕ) (s : Store) : Outcome (Tree × Store) := do
  let (rootNode, s) ← s.allocPage
  pure (⟨slotId, false⟩, (s.put rootNode (.new true)).setRoot slotId rootNode)

variable (t : Tree)

def fromRoot (s : Store) : Store.Position := ⟨metadataPageId, 0, s.roots t.slotId⟩

/-- The leaf of findLeafO and findLeafS. -/
def findLeaf (fuel : ℕ) (s : Store) (key : Key) : Outcome ℕ := do
  let at_ ← s.descend key none fuel (t.fromRoot s)
  pure at_.node

/-- point lookup, with the payload that fn is called on -/
def lookup (fuel : ℕ) (s : Store) (key : Key) : Outcome (Option Payload) := do
  let node ← t.findLeaf fuel s key
  let n := s.page node
  let (pos, found) := n.lowerBound key
  pure (if found then some (n.getPayload pos) else none)

/-- point lookup into a buffer: payload len on success (`none` is -1), and the bytes copied -/
def lookupInto (fuel : ℕ) (s : Store) (key : Key) (payloadOutSize : ℕ) :
    Outcome (Option (ℕ × List u8)) := do
  let node ← t.findLeaf fuel s key
  let n := s.page node
  let (pos, found) := n.lowerBound key
  pure (if found then
      some ((n.slotAt pos).payloadLen,
        (n.getPayload pos).take (min (n.slotAt pos).payloadLen payloadOutSize))
    else none)

/-- fn writes into the span that it is given, so it keeps the length. -/
structure Callback where
  apply : Payload → Payload
  length : ∀ p, (apply p).length = p.length

def updateInPlace (fuel : ℕ) (s : Store) (key : Key) (fn : Callback) : Outcome (Bool × Store) := do
  let node ← t.findLeaf fuel s key
  let n := s.page node
  let (pos, found) := n.lowerBound key
  pure (if found then (true, s.put node (n.setPayload pos (fn.apply (n.getPayload pos))))
    else (false, s))

/-- create new root if necessary: the parent to split into -/
def splitParent (s : Store) (node parent : ℕ) : Outcome (ℕ × Store) :=
  if parent = metadataPageId then do
    let (newRoot, s) ← s.allocPage
    pure (newRoot, (s.put newRoot { BTreeNode.new false with link := node }).setRoot t.slotId newRoot)
  else pure (parent, s)

/-- The result is the page and the key with which ensureSpace is called at the end, if it is. -/
def trySplit (s : Store) (node parent : ℕ) : Outcome (Option (ℕ × Key) × Store) := do
  let (parent, s) ← t.splitParent s node parent
  -- split
  let n := s.page node
  let sepInfo := n.findSeparator t.splitOrdered
  let sepKey := n.getSep sepInfo
  if (s.page parent).hasSpaceFor sepInfo.len pidSize then do
    let (newNode, s) ← s.allocPage
    let (nodeLeft, nodeRight, p) := n.splitNode node newNode (s.page parent) sepInfo.slot sepKey
    pure (none, ((s.put newNode nodeRight).put parent p).put node nodeLeft)
  else
    -- must split parent to make space for separator, restart from root to do this
    pure (some (parent, sepKey), s)

def ensureSpace : ℕ → Store → ℕ → Key → ℕ → Outcome Store
  | 0, _, _, _, _ => .spins
  | fuel + 1, s, toSplit, key, payloadLen => do
    let at_ ← s.descend key (some toSplit) fuel (t.fromRoot s)
    if at_.node = toSplit then
      if (s.page at_.node).hasSpaceFor key.length payloadLen then pure s
      else do
        let (restart, s) ← t.trySplit s at_.node at_.parent
        match restart with
        | none => pure s
        | some (parent, sepKey) => ensureSpace fuel s parent sepKey pidSize
    else pure s

/-- One turn of insert: `false` where the insert hasn't happened. -/
def insertTurn (fuel : ℕ) (s : Store) (key : Key) (payload : Payload) : Outcome (Bool × Store) := do
  let at_ ← s.descend key none fuel (t.fromRoot s)
  let n := s.page at_.node
  if n.hasSpaceFor key.length payload.length then
    pure (true, s.put at_.node (n.insertInPage key payload))
  else do
    let (restart, s) ← t.trySplit s at_.node at_.parent
    match restart with
    | none => pure (false, s)
    | some (parent, sepKey) => do
      let s ← t.ensureSpace fuel s parent sepKey pidSize
      pure (false, s)

def insert : ℕ → Store → Key → Payload → Outcome Store
  | 0, _, _, _ => .spins
  | fuel + 1, s, key, payload => do
    let (happened, s) ← t.insertTurn fuel s key payload
    if happened then pure s else insert fuel s key payload

def remove (fuel : ℕ) (s : Store) (key : Key) : Outcome (Bool × Store) := do
  let at_ ← s.descend key none fuel (t.fromRoot s)
  let n := s.page at_.node
  let (slotId, found) := n.lowerBound key
  if !found then pure (false, s)
  else
    let sizeEntry := (n.slotAt slotId).keyLen + (n.slotAt slotId).payloadLen
    let parent := s.page at_.parent
    if n.freeSpaceAfterCompaction + sizeEntry ≥ underFullSize ∧ at_.parent ≠ metadataPageId ∧
        parent.count ≥ 2 ∧ at_.pos + 1 < parent.count then
      -- underfull
      let right := s.page (parent.getChild (at_.pos + 1))
      let n := n.removeSlot slotId
      if right.freeSpaceAfterCompaction ≥ pageSize - underFullSize then
        let (_, n, parent) := n.mergeNodes at_.node at_.pos parent right
        pure (true, (s.put at_.parent parent).put at_.node n)
      else pure (true, s.put at_.node n)
    else pure (true, s.put at_.node (n.removeSlot slotId))

section Scan
variable {σ : Type}

/-- The loop of scanAsc; `fn` keeps a state and says whether to go on. -/
def scanAscFrom (s : Store) (fn : σ → BTreeNode → ℕ → σ × Bool) : ℕ → ℕ → ℕ → σ → Outcome σ
  | 0, _, _, _ => .spins
  | fuel + 1, node, pos, st =>
    let n := s.page node
    if pos < n.count then
      let (st, more) := fn st n pos
      if more then scanAscFrom s fn fuel node (pos + 1) st else .done st
    else if n.hasRightNeighbour then scanAscFrom s fn fuel n.link 0 st
    else .done st

def scanAsc (fuel : ℕ) (s : Store) (key : Key) (fn : σ → BTreeNode → ℕ → σ × Bool) (st : σ) :
    Outcome σ := do
  let node ← t.findLeaf fuel s key
  scanAscFrom s fn fuel node ((s.page node).lowerBound key).1 st

/-- The inner loop of scanDesc; the first argument is pos + 1. -/
def descLeaf (n : BTreeNode) (fn : σ → BTreeNode → ℕ → Bool → σ × Bool) (exactMatch : Bool) :
    ℕ → σ → σ × Bool
  | 0, st => (st, true)
  | pos + 1, st =>
    let (st, more) := fn st n pos exactMatch
    if more then descLeaf n fn exactMatch pos st else (st, false)

def scanDescFrom (s : Store) (fn : σ → BTreeNode → ℕ → Bool → σ × Bool) (exactMatch : Bool) :
    ℕ → ℕ → ℕ → σ → Outcome σ
  | 0, _, _, _ => .spins
  | fuel + 1, node, pos, st => do
    let n := s.page node
    let (st, more) := descLeaf n fn exactMatch pos st
    if more ∧ n.hasLowerFence then do
      let node ← t.findLeaf fuel s n.getLowerFence
      scanDescFrom s fn exactMatch fuel node (s.page node).count st
    else pure st

def scanDesc (fuel : ℕ) (s : Store) (key : Key) (fn : σ → BTreeNode → ℕ → Bool → σ × Bool)
    (st : σ) : Outcome σ := do
  let node ← t.findLeaf fuel s key
  let (pos, exactMatch) := (s.page node).lowerBound key
  if pos = (s.page node).count then t.scanDescFrom s fn true fuel node pos st
  else t.scanDescFrom s fn exactMatch fuel node (pos + 1) st

/-- vmcacheAdapter::scan, with keys and records as bytes -/
def adapterScan (fuel : ℕ) (s : Store) (key : Key) (found_record_cb : σ → Key × Payload → σ × Bool)
    (st : σ) : Outcome σ :=
  t.scanAsc fuel s key (fun st n slot => found_record_cb st (n.fullKey slot, n.getPayload slot)) st

/-- vmcacheAdapter::scanDesc; the callback's state also has `first`. -/
def adapterScanDesc (fuel : ℕ) (s : Store) (key : Key)
    (found_record_cb : σ → Key × Payload → σ × Bool) (st : σ) : Outcome σ := do
  let (_, st) ← t.scanDesc fuel s key
    (fun (first, st) n slot exactMatch =>
      if first && !exactMatch then ((false, st), true)
      else
        let (st, more) := found_record_cb st (n.fullKey slot, n.getPayload slot)
        ((false, st), more))
    (true, st)
  pure st

end Scan

end Tree

end BTree
