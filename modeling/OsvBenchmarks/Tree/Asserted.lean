import OsvBenchmarks.Tree.Operations

/-!
insert with its assertions, as it is compiled without -DNDEBUG: those of
findSeparator, of splitNode and of insertInPage. Where none of them fails the
assertions change nothing.
-/
namespace BTree

namespace Outcome
variable {α β : Type}

/-- assert(holds) -/
def assert (holds : Prop) [Decidable holds] : Outcome Unit := if holds then done () else crashes

@[simp] theorem done_bind (a : α) (f : α → Outcome β) : (done a >>= f) = f a := rfl

@[simp] theorem exits_bind (f : α → Outcome β) : (exits >>= f) = exits := rfl

theorem assert_bind {holds : Prop} [Decidable holds] (h : holds) (f : Unit → Outcome β) :
    (assert holds >>= f) = f () := by
  rw [assert, if_pos h]
  rfl

/-- `plain` is `checked` without its assertions. -/
def Erases (checked plain : Outcome α) : Prop := checked ≠ crashes → plain = checked

theorem erases_refl (a : Outcome α) : Erases a a := fun _ => rfl

theorem Erases.bind {a b : Outcome α} {f g : α → Outcome β} (first : Erases a b)
    (rest : ∀ x, Erases (f x) (g x)) : Erases (a >>= f) (b >>= g) := by
  intro fine
  cases a with
  | crashes => exact absurd rfl fine
  | spins => rw [first (by simp)]; rfl
  | exits => rw [first (by simp)]; rfl
  | done x =>
    rw [first (by simp)]
    exact rest x fine

theorem Erases.assert {a b : Outcome α} {holds : Prop} [Decidable holds] (rest : Erases a b) :
    Erases (assert holds >>= fun _ => a) b := by
  unfold Outcome.assert
  split
  · exact rest
  · intro fine
    exact absurd rfl fine

end Outcome

open Outcome

namespace BTreeNode

/-- insertInPage: `needed <= freeSpaceAfterCompaction()` where the page is compacted -/
def insertAsserts (n : BTreeNode) (key : Key) (payload : Payload) : Prop :=
  n.spaceNeeded key.length payload.length > n.freeSpace →
    n.spaceNeeded key.length payload.length ≤ n.freeSpaceAfterCompaction

/-- splitNode: the parent leads to this page, and has space for the separator -/
def adoptAsserts (parent : BTreeNode) (sep : Key) (leftPID newPID : ℕ) : Prop :=
  let oldParentSlot := (parent.lowerBound sep).1
  if oldParentSlot = parent.count then
    parent.link = leftPID ∧ ({ parent with link := newPID } : BTreeNode).insertAsserts sep (pidBytes leftPID)
  else
    parent.getChild oldParentSlot = leftPID ∧
      (parent.setPayload oldParentSlot (pidBytes newPID)).insertAsserts sep (pidBytes leftPID)

instance (n : BTreeNode) (key : Key) (payload : Payload) : Decidable (n.insertAsserts key payload) :=
  inferInstanceAs (Decidable (_ → _))

instance (parent : BTreeNode) (sep : Key) (leftPID newPID : ℕ) :
    Decidable (parent.adoptAsserts sep leftPID newPID) :=
  if h : (parent.lowerBound sep).1 = parent.count then
    decidable_of_iff (parent.link = leftPID ∧
      ({ parent with link := newPID } : BTreeNode).insertAsserts sep (pidBytes leftPID)) (by
        rw [adoptAsserts]
        exact (iff_of_eq (if_pos h)).symm)
  else
    decidable_of_iff (parent.getChild (parent.lowerBound sep).1 = leftPID ∧
      (parent.setPayload (parent.lowerBound sep).1 (pidBytes newPID)).insertAsserts sep
        (pidBytes leftPID)) (by
        rw [adoptAsserts]
        exact (iff_of_eq (if_neg h)).symm)

end BTreeNode

namespace Tree
variable (t : Tree)

def trySplitAsserted (s : Store) (node parent : ℕ) : Outcome (Option (ℕ × Key) × Store) := do
  let (parent, s) ← t.splitParent s node parent
  let n := s.page node
  assert (n.count > 1)
  let sepInfo := n.findSeparator t.splitOrdered
  let sepKey := n.getSep sepInfo
  if (s.page parent).hasSpaceFor sepInfo.len pidSize then do
    assert (sepInfo.slot > 0 ∧ sepInfo.slot < pageSize / pidSize)
    let (newNode, s) ← s.allocPage
    assert ((s.page parent).adoptAsserts sepKey node newNode)
    let (nodeLeft, nodeRight, p) := n.splitNode node newNode (s.page parent) sepInfo.slot sepKey
    pure (none, ((s.put newNode nodeRight).put parent p).put node nodeLeft)
  else
    pure (some (parent, sepKey), s)

def ensureSpaceAsserted : ℕ → Store → ℕ → Key → ℕ → Outcome Store
  | 0, _, _, _, _ => .spins
  | fuel + 1, s, toSplit, key, payloadLen => do
    let at_ ← s.descend key (some toSplit) fuel (t.fromRoot s)
    if at_.node = toSplit then
      if (s.page at_.node).hasSpaceFor key.length payloadLen then pure s
      else do
        let (restart, s) ← t.trySplitAsserted s at_.node at_.parent
        match restart with
        | none => pure s
        | some (parent, sepKey) => ensureSpaceAsserted fuel s parent sepKey pidSize
    else pure s

def insertTurnAsserted (fuel : ℕ) (s : Store) (key : Key) (payload : Payload) : Outcome (Bool × Store) := do
  let at_ ← s.descend key none fuel (t.fromRoot s)
  let n := s.page at_.node
  if n.hasSpaceFor key.length payload.length then do
    assert (n.insertAsserts key payload)
    pure (true, s.put at_.node (n.insertInPage key payload))
  else do
    let (restart, s) ← t.trySplitAsserted s at_.node at_.parent
    match restart with
    | none => pure (false, s)
    | some (parent, sepKey) => do
      let s ← t.ensureSpaceAsserted fuel s parent sepKey pidSize
      pure (false, s)

/-- insert, from the first turn of its loop on -/
def insertAsserted : ℕ → Store → Key → Payload → Outcome Store
  | 0, _, _, _ => .spins
  | fuel + 1, s, key, payload => do
    let (happened, s) ← t.insertTurnAsserted fuel s key payload
    if happened then pure s else insertAsserted fuel s key payload

/-- What follows trySplit: nothing, or ensureSpace for its parent. -/
def restart (fuel : ℕ) : Option (ℕ × Key) × Store → Outcome Store
  | (none, s) => done s
  | (some (parent, sepKey), s) => t.ensureSpaceAsserted fuel s parent sepKey pidSize

section Turn
variable {t : Tree} {fuel : ℕ} {s : Store} {key : Key} {at_ : Store.Position}

theorem ensureSpaceAsserted_eq {toSplit payloadLen : ℕ}
    (descends : s.descend key (some toSplit) fuel (t.fromRoot s) = done at_) (here : at_.node = toSplit)
    (full : (s.page at_.node).hasSpaceFor key.length payloadLen = false) :
    t.ensureSpaceAsserted (fuel + 1) s toSplit key payloadLen =
      t.trySplitAsserted s at_.node at_.parent >>= t.restart fuel := by
  rw [ensureSpaceAsserted, descends, done_bind, if_pos here, full]
  apply congrArg (t.trySplitAsserted s at_.node at_.parent >>= ·)
  funext result
  obtain ⟨up, s⟩ := result
  cases up with
  | none => rfl
  | some up => rfl

theorem insertTurnAsserted_inserts {payload : Payload}
    (descends : s.descend key none fuel (t.fromRoot s) = done at_)
    (space : (s.page at_.node).hasSpaceFor key.length payload.length = true) :
    t.insertTurnAsserted fuel s key payload =
      done (true, s.put at_.node ((s.page at_.node).insertInPage key payload)) := by
  have asserts : (s.page at_.node).insertAsserts key payload := fun _ => of_decide_eq_true space
  rw [insertTurnAsserted, descends, done_bind]
  dsimp only
  rw [if_pos space, assert_bind asserts]
  rfl

theorem insertTurnAsserted_splits {payload : Payload}
    (descends : s.descend key none fuel (t.fromRoot s) = done at_)
    (full : (s.page at_.node).hasSpaceFor key.length payload.length = false) :
    t.insertTurnAsserted fuel s key payload =
      t.trySplitAsserted s at_.node at_.parent >>= fun result =>
        t.restart fuel result >>= fun s => done (false, s) := by
  rw [insertTurnAsserted, descends, done_bind]
  dsimp only
  rw [full]
  apply congrArg (t.trySplitAsserted s at_.node at_.parent >>= ·)
  funext result
  obtain ⟨up, s⟩ := result
  cases up with
  | none => rfl
  | some up => rfl

end Turn

theorem trySplit_erases (s : Store) (node parent : ℕ) :
    Erases (t.trySplitAsserted s node parent) (t.trySplit s node parent) := by
  apply (erases_refl _).bind
  rintro ⟨parent, s⟩
  apply Erases.assert
  dsimp only
  split
  · apply Erases.assert
    apply (erases_refl _).bind
    rintro ⟨newNode, s⟩
    exact (erases_refl _).assert
  · exact erases_refl _

theorem ensureSpace_erases (fuel : ℕ) (s : Store) (toSplit : ℕ) (key : Key) (payloadLen : ℕ) :
    Erases (t.ensureSpaceAsserted fuel s toSplit key payloadLen)
      (t.ensureSpace fuel s toSplit key payloadLen) := by
  induction fuel generalizing s toSplit key payloadLen with
  | zero => exact erases_refl _
  | succ fuel ih =>
    apply (erases_refl _).bind
    intro at_
    split
    · split
      · exact erases_refl _
      · apply (t.trySplit_erases s at_.node at_.parent).bind
        rintro ⟨restart, s⟩
        cases restart with
        | none => exact erases_refl _
        | some up => exact ih s up.1 up.2 pidSize
    · exact erases_refl _

theorem insertTurn_erases (fuel : ℕ) (s : Store) (key : Key) (payload : Payload) :
    Erases (t.insertTurnAsserted fuel s key payload) (t.insertTurn fuel s key payload) := by
  apply (erases_refl _).bind
  intro at_
  dsimp only
  split
  · exact (erases_refl _).assert
  · apply (t.trySplit_erases s at_.node at_.parent).bind
    rintro ⟨restart, s⟩
    cases restart with
    | none => exact erases_refl _
    | some up =>
      apply (t.ensureSpace_erases fuel s up.1 up.2 pidSize).bind
      exact fun s => erases_refl _

/-- insert without assertions does what it does with them, as long as none fails. -/
theorem insert_erases (fuel : ℕ) (s : Store) (key : Key) (payload : Payload) :
    Erases (t.insertAsserted fuel s key payload) (t.insert fuel s key payload) := by
  induction fuel generalizing s with
  | zero => exact erases_refl _
  | succ fuel ih =>
    apply (t.insertTurn_erases fuel s key payload).bind
    rintro ⟨happened, s⟩
    dsimp only
    split
    · exact erases_refl _
    · exact ih s

end Tree
end BTree
