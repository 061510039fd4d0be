import OsvBenchmarks.Library.Blocks
import OsvBenchmarks.Library.Optimistic
import OsvBenchmarks.Tree.Refinement

/-!
The operations of the tree as threads run them, by one action on a page lock or
one section of reads or writes between two such actions. Optimistic reads see
what is there as long as the guard is valid, and anything else otherwise; they
stand at the last moment of what they read. Pages are not evicted, versions do
not wrap around, and the scans are left out with their shared locks. The history
is no data of the program.
-/
namespace BTree.Threads
open BTree BTreeNode Blocks Optimistic

inductive Event where
  | began (thread : ℕ)
  | changed (thread : ℕ) (call : Call)

def Event.thread : Event → ℕ
  | began i => i
  | changed i _ => i

structure Shared where
  store : Store
  locks : Locks ℕ ℕ
  history : List Event

/-- What an optimistic read sees of a page or of its root where a writer is at work. -/
structure Sight where
  page : BTreeNode
  root : ℕ

/-- What a descent of insert and remove goes to: the leaf, or ensureSpace's page. -/
inductive Goal where
  | leaf
  | page (toSplit : ℕ) (sepKey : Key)

inductive Tag where
  | quiet
  | waits (page : ℕ)
  | changes (node : ℕ) (slot : Option ℕ)

inductive Label where
  | start
  | descend (goal : Goal)
  | alone (node : Guard ℕ)
  | both (goal : Goal) (parent node : Guard ℕ) (pos : ℕ)

inductive Result where
  | answered (answer : Answer)
  | exited
  | crashed
  deriving DecidableEq

abbrev Code := Block Shared Sight Tag Label Result

namespace Shared
variable (s : Shared) (p i : ℕ)

def lockX : Shared := { s with locks := s.locks.lockX p i }

def unlockX : Shared := { s with locks := s.locks.unlockX p }

end Shared

section Actions
variable (i : ℕ) (g : Guard ℕ)

/-- GuardO::init, with the assertion of toPtr -/
def init (page : ℕ) (next : Guard ℕ → Code) : Code :=
  .act (.waits page)
    (fun _ s => if s.store.isValidPID page = true ∧ s.locks.holder page ≠ none then none else some s)
    fun _ s => if s.store.isValidPID page = true then next (s.locks.guard page) else .stop .crashed

/-- checkVersionAndRestart, with what follows the exception -/
def check (restart next : Code) : Code :=
  .act .quiet (fun _ s => some s) fun _ s => if s.locks.Unchanged g then next else restart

def readPage (next : BTreeNode → Code) : Code :=
  .act .quiet (fun _ s => some s) fun see s =>
    next (if s.locks.Unchanged g then s.store.page g.page else see.page)

def readRoot (slotId : ℕ) (next : ℕ → Code) : Code :=
  .act .quiet (fun _ s => some s) fun see s =>
    next (if s.locks.Unchanged g then s.store.roots slotId else see.root)

/-- GuardX(GuardO&&) -/
def upgrade (restart next : Code) : Code :=
  .act (.waits g.page)
    (fun _ s =>
      if s.locks.version g.page ≠ g.version then some s
      else if s.locks.Free g.page then some (s.lockX g.page i)
      else none)
    fun _ s => if s.locks.version g.page ≠ g.version then restart else next

/-- fixX -/
def fixX (page : ℕ) (next : Code) : Code :=
  .act (.waits page) (fun _ s => if s.locks.Free page then some (s.lockX page i) else none) fun _ _ => next

/-- unfixX -/
def unfixX (page : ℕ) (next : Code) : Code :=
  .act .quiet (fun _ s => some (s.unlockX page)) fun _ _ => next

/-- The change of a call, in a section in which the thread holds the pages that it writes; the slot
is what an earlier search has found. -/
def change (call : Call) (node : ℕ) (slot : Option ℕ) (write : Store → Store) (next : Code) : Code :=
  .act (.changes node slot)
    (fun _ s => some { s with store := write s.store, history := s.history ++ [.changed i call] })
    fun _ _ => next

end Actions

def callKey : Call → Key
  | .insert key _ => key
  | .remove key => key
  | .lookup key => key
  | .lookupInto key _ => key
  | .updateInPlace key _ => key

/-- insert and remove come to the leaf with a guard on its parent. -/
def coupled : Call → Bool
  | .insert _ _ => true
  | .remove _ => true
  | .lookup _ => false
  | .lookupInto _ _ => false
  | .updateInPlace _ _ => false

def Goal.key (goal : Goal) (call : Call) : Key :=
  match goal with
  | .leaf => callKey call
  | .page _ sepKey => sepKey

/-- The loops of ensureSpace end at its page. -/
def Goal.stopsAt (goal : Goal) (node : ℕ) : Bool :=
  match goal with
  | .leaf => false
  | .page toSplit _ => node == toSplit

/-- The place of a key among the children of an inner page, and the child. -/
def step (n : BTreeNode) (key : Key) : ℕ × ℕ :=
  let pos := (n.lowerBound key).1
  (pos, if pos = n.count then n.link else n.getChild pos)

/-- remove on a leaf whose parent and right neighbour are locked too. -/
def merged (s : Store) (parent pos node slotId : ℕ) : Store :=
  let right := s.page ((s.page parent).getChild (pos + 1))
  let n := (s.page node).removeSlot slotId
  if right.freeSpaceAfterCompaction ≥ pageSize - underFullSize then
    let (_, n, p) := n.mergeNodes node pos (s.page parent) right
    (s.put parent p).put node n
  else s.put node n

section Code
variable (t : Tree) (i : ℕ)

/-- trySplit below a parent that is a node. -/
def splitBelow (parent node : ℕ) : Code :=
  .act .quiet
    (fun _ s =>
      match t.trySplitAsserted s.store node parent with
      | .done (none, store) => some { s with store, locks := s.locks.lockX s.store.allocCount i }
      | _ => some s)
    fun _ s =>
      match t.trySplitAsserted s.store node parent with
      | .done (none, _) =>
        unfixX s.store.allocCount <| unfixX node <| unfixX parent <| .goto (.descend .leaf)
      | .done (some (toSplit, sepKey), _) =>
        unfixX node <| unfixX parent <| .goto (.descend (.page toSplit sepKey))
      | .exits => .stop .exited
      | _ => .stop .crashed

/-- trySplit: a new root above the node first, where there is none. -/
def trySplit (parent node : ℕ) : Code :=
  if parent = metadataPageId then
    .act .quiet
      (fun _ s =>
        match t.splitParent s.store node parent with
        | .done (newRoot, store) => some { s with store, locks := s.locks.lockX newRoot i }
        | _ => some s)
      fun _ s =>
        match t.splitParent s.store node parent with
        | .done (newRoot, _) => unfixX parent <| splitBelow t i newRoot node
        | .exits => .stop .exited
        | _ => .stop .crashed
  else splitBelow t i parent node

/-- lock parent and leaf, then split -/
def lockAndSplit (goal : Goal) (parent node : Guard ℕ) : Code :=
  upgrade i parent (.goto (.descend goal)) <|
    upgrade i node (unfixX parent.page <| .goto (.descend goal)) <|
      trySplit t i parent.page node.page

/-- insert at the leaf -/
def insertLeaf (key : Key) (payload : Payload) (parent node : Guard ℕ) (n : BTreeNode) : Code :=
  let restart := .goto (.descend .leaf)
  if n.hasSpaceFor key.length payload.length then
    -- only lock leaf
    upgrade i node restart <| check parent (unfixX node.page restart) <|
      change i (.insert key payload) node.page none
        (fun s => s.put node.page ((s.page node.page).insertInPage key payload)) <|
      unfixX node.page <| .stop (.answered .unit)
  else lockAndSplit t i .leaf parent node

/-- remove at the leaf -/
def removeLeaf (key : Key) (parent node : Guard ℕ) (pos : ℕ) (n : BTreeNode) : Code :=
  let restart := .goto (.descend .leaf)
  let slotId := (n.lowerBound key).1
  let simple :=
    upgrade i node restart <| check parent (unfixX node.page restart) <|
      change i (.remove key) node.page (some slotId)
        (fun s => s.put node.page ((s.page node.page).removeSlot slotId)) <|
      unfixX node.page <| .stop (.answered (.bool true))
  if !(n.lowerBound key).2 then
    check node restart <| check parent restart <| .stop (.answered (.bool false))
  else
    let sizeEntry := (n.slotAt slotId).keyLen + (n.slotAt slotId).payloadLen
    if n.freeSpaceAfterCompaction + sizeEntry ≥ underFullSize ∧ parent.page ≠ metadataPageId then
      readPage parent fun p =>
        if p.count ≥ 2 ∧ pos + 1 < p.count then
          -- underfull
          upgrade i parent restart <| upgrade i node (unfixX parent.page restart) <|
            .act .quiet (fun _ s => some s) fun _ s =>
              let rightLocked := (s.store.page parent.page).getChild (pos + 1)
              fixX i rightLocked <|
                change i (.remove key) node.page (some slotId)
                  (fun s => merged s parent.page pos node.page slotId) <|
                unfixX rightLocked <| unfixX node.page <| unfixX parent.page <|
                .stop (.answered (.bool true))
        else simple
    else simple

/-- The other operations at the leaf. -/
def plainLeaf (call : Call) (node : Guard ℕ) (n : BTreeNode) : Code :=
  let restart := .goto (.descend .leaf)
  let pos := (n.lowerBound (callKey call)).1
  let found := (n.lowerBound (callKey call)).2
  match call with
  | .lookup _ =>
    check node restart <| .stop (.answered (.payload (if found then some (n.getPayload pos) else none)))
  | .lookupInto _ payloadOutSize =>
    check node restart <| .stop (.answered (.copied (if found then
      some ((n.slotAt pos).payloadLen, (n.getPayload pos).take (min (n.slotAt pos).payloadLen payloadOutSize))
      else none)))
  | .updateInPlace key fn =>
    if found then
      upgrade i node restart <|
        change i (.updateInPlace key fn) node.page (some pos)
          (fun s => s.put node.page ((s.page node.page).setPayload pos
            (fn.apply ((s.page node.page).getPayload pos)))) <|
        unfixX node.page <| .stop (.answered (.bool true))
    else check node restart <| .stop (.answered (.bool false))
  | .insert _ _ => restart
  | .remove _ => restart

/-- What insert and remove do once the descent has come to the node. -/
def coupledLeaf (call : Call) (goal : Goal) (parent node : Guard ℕ) (pos : ℕ) (n : BTreeNode) : Code :=
  match goal with
  | .page toSplit sepKey =>
    if node.page = toSplit ∧ n.hasSpaceFor sepKey.length pidSize = false then
      lockAndSplit t i goal parent node
    else
      -- someone else did split concurrently
      check node (.goto (.descend goal)) <| check parent (.goto (.descend goal)) <|
        .goto (.descend .leaf)
  | .leaf =>
    match call with
    | .insert key payload => insertLeaf t i key payload parent node n
    | .remove key => removeLeaf i key parent node pos n
    | _ => .goto (.descend .leaf)

def code (call : Call) : Label → Code
  | .start =>
    .act .quiet (fun _ s => some { s with history := s.history ++ [.began i] }) fun _ _ =>
      .goto (.descend .leaf)
  | .descend goal =>
    init metadataPageId fun parent => readRoot parent t.slotId fun root =>
      check parent (.goto (.descend goal)) <| init root fun node =>
        if coupled call then .goto (.both goal parent node 0)
        else check parent (.goto (.descend goal)) <| .goto (.alone node)
  | .alone node =>
    readPage node fun n =>
      if n.isInner then
        check node (.goto (.descend .leaf)) <| init (step n (callKey call)).2 fun child =>
          check node (.goto (.descend .leaf)) <| .goto (.alone child)
      else plainLeaf i call node n
  | .both goal parent node pos =>
    readPage node fun n =>
      if n.isInner ∧ !goal.stopsAt node.page then
        let next := step n (goal.key call)
        check parent (.goto (.descend goal)) <| check node (.goto (.descend goal)) <|
          init next.2 fun child => .goto (.both goal node child next.1)
      else coupledLeaf t i call goal parent node pos n

end Code
end BTree.Threads
