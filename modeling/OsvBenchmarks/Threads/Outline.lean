import OsvBenchmarks.Threads.Stays

/-!
The invariant of the shared tree and what a thread knows between its actions.
What an optimistic reader has seen of a page is worth something only while its
guard is valid; what a thread knows of a page that it holds stays true. One rule
for each kind of action carries the assertions on.
-/
namespace BTree.Threads
open BTree FenceTree BTreeNode Blocks Optimistic

def mapOf (history : List Event) : Map :=
  history.foldl (fun m e => match e with
    | .began _ => m
    | .changed _ call => m.after call) ∅

@[simp] theorem mapOf_began (h : List Event) (i : ℕ) : mapOf (h ++ [.began i]) = mapOf h := by
  rw [mapOf, List.foldl_append]
  rfl

@[simp] theorem mapOf_changed (h : List Event) (i : ℕ) (call : Call) :
    mapOf (h ++ [.changed i call]) = (mapOf h).after call := by
  rw [mapOf, List.foldl_append]
  rfl

def Event.changer : Event → Option ℕ
  | .began _ => none
  | .changed i _ => some i

def Rests (call : Call) (m : Map) : Prop :=
  match call with
  | .insert _ _ => False
  | .remove key => m.lookup key = none
  | .lookup _ => True
  | .lookupInto _ _ => True
  | .updateInPlace key _ => m.lookup key = none

/-- The answer is the map's at a moment since the thread began; at that moment the call changed the
tree, unless there was nothing to change. -/
def Answered (i : ℕ) (call : Call) (a : Answer) (history : List Event) : Prop :=
  ∃ before after, history = before ++ after ∧ .began i ∈ before ∧ a = (mapOf before).answer call ∧
    (Rests call (mapOf before) ∧ (∀ c, .changed i c ∉ history) ∨
      ∃ rest, after = .changed i call :: rest)

def New (call : Call) (m : Map) : Prop :=
  match call with
  | .insert key _ => m.lookup key = none
  | _ => True

instance New.decidable (call : Call) (m : Map) : Decidable (New call m) :=
  match call with
  | .insert key _ => inferInstanceAs (Decidable (m.lookup key = none))
  | .remove _ => .isTrue trivial
  | .lookup _ => .isTrue trivial
  | .lookupInto _ _ => .isTrue trivial
  | .updateInPlace _ _ => .isTrue trivial

section
variable (t : Tree) (w : ℕ) (ops : ℕ → Call)

/-- The tree is that of the history, pages to come are free, and each call changes the tree once,
after it has begun. -/
structure Inv (s : Shared) : Prop where
  tree : Represents t w s.store (mapOf s.history)
  fresh : ∀ p, s.store.allocCount ≤ p → s.locks.Free p
  once : (s.history.filterMap Event.changer).Nodup
  own : ∀ i c, .changed i c ∈ s.history → c = ops i ∧ [.began i, .changed i c].Sublist s.history

/-- What thread `i` relies on. -/
structure Keeps (i : ℕ) (s s' : Shared) : Prop where
  locks : Rely (Stays t w s.store s'.store) i s.locks s'.locks
  alloc : s.store.allocCount ≤ s'.store.allocCount
  history : ∃ more, s'.history = s.history ++ more ∧ ∀ e ∈ more, e.thread ≠ i

/-- The thread has begun, has changed nothing yet and holds these pages. -/
structure Busy (i : ℕ) (pages : Finset ℕ) (s : Shared) : Prop where
  began : .began i ∈ s.history
  unchanged : ∀ c, .changed i c ∉ s.history
  holding : s.locks.Holding i pages

structure Sees (i : ℕ) (g : Guard ℕ) (φ : Store → Prop) (s : Shared) : Prop where
  there : g.page < s.store.allocCount
  seen : Seen i s.locks g (φ s.store)

def Covers (p : ℕ) (key : Key) (s : Store) : Prop :=
  ∃ l, OnLevel t w s p l ∧ (s.view p).fences.Has key

/-- The meta data page, or an inner page that leads to the child on the way to the key. -/
def Leads (p : ℕ) (key : Key) (c pos : ℕ) (s : Store) : Prop :=
  p = metadataPageId ∧ s.roots t.slotId = c ∨
    p ≠ metadataPageId ∧ ∃ l, OnLevel t w s p (l + 1) ∧ (s.view p).fences.Has key ∧
      step (s.page p) key = (pos, c)

def Hangs (p c pos : ℕ) (s : Store) : Prop :=
  ∃ live level, WellFormed t w s live level ∧ c ∈ live ∧ Placed t s live level ⟨p, pos, c⟩

/-- The separator that ensureSpace makes space for. -/
def Goal.Short : Goal → Prop
  | .leaf => True
  | .page _ sepKey => sepKey.length ≤ maxKeyLen

def Grants (i : ℕ) (tag : Tag) (s : Shared) : Prop :=
  match tag with
  | .quiet => True
  | .waits _ => True
  | .changes _ _ => New (ops i) (mapOf s.history)

instance Grants.decidable (i : ℕ) (tag : Tag) (s : Shared) : Decidable (Grants ops i tag s) :=
  match tag with
  | .quiet => .isTrue trivial
  | .waits _ => .isTrue trivial
  | .changes _ _ => inferInstanceAs (Decidable (New (ops i) (mapOf s.history)))

/-- What is owed where a thread may wait: the page comes after those that it holds. And where a call
changes the tree: the thread holds the key's leaf, and has the key's slot in it. -/
def Owes (i : ℕ) (tag : Tag) (s : Shared) : Prop :=
  match tag with
  | .quiet => True
  | .waits page => ∀ q, s.locks.holder q = some i → Before t w s.store q page
  | .changes node slot => s.locks.holder node = some i ∧ OnLevel t w s.store node 0 ∧
      (s.store.view node).fences.Has (callKey (ops i)) ∧
      ∀ k ∈ slot, (s.store.page node).lowerBound (callKey (ops i)) = (k, true)

def Blocked (tag : Tag) (s : Shared) : Prop :=
  match tag with
  | .quiet => False
  | .waits page => ∃ j, s.locks.holder page = some j
  | .changes _ _ => False

def AtLabel (i : ℕ) (label : Label) (s : Shared) : Prop :=
  match label with
  | .start => (∀ e ∈ s.history, e.thread ≠ i) ∧ s.locks.Holding i ∅
  | .descend goal => goal.Short ∧ Busy i ∅ s
  | .alone node => Busy i ∅ s ∧ Sees i node (Covers t w node.page (callKey (ops i))) s
  | .both goal parent node pos => goal.Short ∧ Busy i ∅ s ∧
      Sees i parent (Leads t w parent.page (goal.key (ops i)) node.page pos) s ∧
      Sees i node (fun _ => True) s

def Ends (i : ℕ) (result : Result) (s : Shared) : Prop :=
  match result with
  | .answered a => Answered i (ops i) a s.history
  | .exited => True
  | .crashed => False

def outline : Outline ℕ Shared Tag Label Result where
  inv := Inv t w ops
  rely := Keeps t w
  ok := Grants ops
  owes := Owes t w ops
  waits := fun _ => Blocked
  label := AtLabel t w ops
  result := Ends ops

end

section
variable {t : Tree} {w : ℕ} {ops : ℕ → Call} {i j : ℕ} {s s' s'' : Shared} {g : Guard ℕ}

theorem Keeps.refl : Keeps t w i s s :=
  ⟨.refl fun _ => .refl, le_refl _, [], (List.append_nil _).symm, by simp⟩

theorem Keeps.trans (first : Keeps t w i s s') (second : Keeps t w i s' s'') : Keeps t w i s s'' := by
  obtain ⟨more, same, others⟩ := first.history
  obtain ⟨more', same', others'⟩ := second.history
  refine ⟨first.locks.trans second.locks fun _ => Stays.trans, le_trans first.alloc second.alloc,
    more ++ more', ?_, ?_⟩
  · rw [same', same, List.append_assoc]
  · intro e mem
    exact (List.mem_append.mp mem).elim (others e) (others' e)

def Local (t : Tree) (w p : ℕ) (φ : Store → Prop) : Prop :=
  ∀ s s', Stays t w s s' p → φ s → φ s'

theorem local_true {p : ℕ} : Local t w p fun _ => True := fun _ _ _ _ => trivial

theorem local_page {p : ℕ} (P : BTreeNode → Prop) : Local t w p fun s => P (s.page p) := by
  intro s s' stays here
  simp only [stays.page]
  exact here

theorem covers_local {p : ℕ} {key : Key} : Local t w p (Covers t w p key) := by
  rintro s s' stays ⟨l, on, has⟩
  exact ⟨l, stays.level l on, by rwa [Store.view, stays.page]⟩

theorem leads_local {p c pos : ℕ} {key : Key} : Local t w p (Leads t w p key c pos) := by
  rintro s s' stays (⟨top, root⟩ | ⟨below, l, on, has, next⟩)
  · exact Or.inl ⟨top, (stays.root top).trans root⟩
  · exact Or.inr ⟨below, l, stays.level _ on, by rwa [Store.view, stays.page], by rwa [stays.page]⟩

theorem Answered.more {call : Call} {a : Answer} {h more : List Event} (answered : Answered i call a h)
    (others : ∀ e ∈ more, e.thread ≠ i) : Answered i call a (h ++ more) := by
  obtain ⟨before, after, same, began, answer, ends⟩ := answered
  refine ⟨before, after ++ more, by rw [same, List.append_assoc], began, answer, ?_⟩
  rcases ends with ⟨nothing, never⟩ | ⟨rest, changed⟩
  · refine Or.inl ⟨nothing, fun c mem => ?_⟩
    rcases List.mem_append.mp mem with here | there
    · exact never c here
    · exact others _ there rfl
  · exact Or.inr ⟨rest ++ more, by rw [changed, List.cons_append]⟩

theorem answered_stable {call : Call} {a : Answer} :
    (outline t w ops).Stable i fun s => Answered i call a s.history := by
  intro s s' _ _ keeps answered
  obtain ⟨more, same, others⟩ := keeps.history
  rw [same]
  exact answered.more others

theorem busy_stable {pages : Finset ℕ} : (outline t w ops).Stable i (Busy i pages) := by
  intro s s' _ _ keeps busy
  obtain ⟨more, same, others⟩ := keeps.history
  refine ⟨?_, fun c mem => ?_, busy.holding.rely keeps.locks⟩
  · rw [same]
    exact List.mem_append_left _ busy.began
  · rw [same] at mem
    rcases List.mem_append.mp mem with here | there
    · exact busy.unchanged c here
    · exact others _ there rfl

theorem sees_stable {φ : Store → Prop} (here : Local t w g.page φ) :
    (outline t w ops).Stable i (Sees i g φ) := by
  intro s s' _ _ keeps sees
  exact ⟨lt_of_lt_of_le sees.there keeps.alloc,
    sees.seen.later keeps.locks.toLater fun stays => here _ _ stays⟩

def Kept (t : Tree) (w : ℕ) (pages : Finset ℕ) (φ : Store → Prop) : Prop :=
  ∀ s s' m, Represents t w s' m → (∀ p ∈ pages, Stays t w s s' p) → φ s → φ s'

theorem Local.kept {pages : Finset ℕ} {p : ℕ} {φ : Store → Prop} (here : Local t w p φ)
    (held : p ∈ pages) : Kept t w pages φ :=
  fun s s' _ _ stays => here s s' (stays p held)

theorem Kept.and {pages : Finset ℕ} {φ ψ : Store → Prop} (first : Kept t w pages φ)
    (second : Kept t w pages ψ) : Kept t w pages fun s => φ s ∧ ψ s :=
  fun s s' m tree stays => And.imp (first s s' m tree stays) (second s s' m tree stays)

theorem held_stable {pages : Finset ℕ} {φ : Store → Prop} (kept : Kept t w pages φ) :
    (outline t w ops).Stable i fun s => Busy i pages s ∧ φ s.store := by
  rintro s s' inv inv' keeps ⟨busy, known⟩
  have still : (outline t w ops).Stable i (Busy i pages) := busy_stable
  refine ⟨still s s' inv inv' keeps busy, ?_⟩
  exact kept _ _ _ inv'.tree
    (fun p held => keeps.locks.locked p ((busy.holding p).mpr held)) known

theorem there_stable {p : ℕ} : (outline t w ops).Stable i fun s => p < s.store.allocCount :=
  fun _ _ _ _ keeps here => lt_of_lt_of_le here keeps.alloc

theorem lawful : (outline t w ops).Lawful where
  refl _ _ := Keeps.refl
  trans _ _ _ _ := Keeps.trans
  label i l := by
    cases l with
    | start =>
      rintro s s' _ _ keeps ⟨none, holding⟩
      obtain ⟨more, same, others⟩ := keeps.history
      refine ⟨?_, holding.rely keeps.locks⟩
      rw [same]
      intro e mem
      exact (List.mem_append.mp mem).elim (none e) (others e)
    | descend goal => exact Outline.Stable.and (.const _) busy_stable
    | alone node => exact busy_stable.and (sees_stable covers_local)
    | both goal parent node pos =>
      exact Outline.Stable.and (.const _)
        (busy_stable.and ((sees_stable leads_local).and (sees_stable local_true)))
  result i r := by
    cases r with
    | answered a => exact answered_stable
    | exited => exact .const _
    | crashed => exact .const _

end
end BTree.Threads
