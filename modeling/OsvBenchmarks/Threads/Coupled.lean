import OsvBenchmarks.Threads.Leaves

/-!
The blocks of insert and remove keep to the outline. A thread that has locked a
page and its parent knows the page's place, so it may split the page there, or
make one leaf of it and its right neighbour.
-/
namespace BTree.Threads
open BTree FenceTree BTreeNode Blocks Optimistic

variable {t : Tree} {w : ℕ} {ops : ℕ → Call} {i : ℕ} {n : BTreeNode} {parent node : Guard ℕ} {pos : ℕ}

theorem lockBoth_holds {goal : Goal} {key : Key} {φ : Store → Prop} {next : Code} (short : goal.Short)
    (known : Local t w parent.page φ)
    (rest : node.page ≠ parent.page → (outline t w ops).Holds i
      (fun s => Busy i {node.page, parent.page} s ∧ Hangs t w parent.page node.page pos s.store ∧
        OnPath t w key node.page n s.store ∧ φ s.store) next) :
    (outline t w ops).Holds i (fun s => Below t w i key parent node pos n s ∧ Sees i parent φ s)
      (upgrade i parent (.goto (.descend goal)) <|
        upgrade i node (unfixX parent.page <| .goto (.descend goal)) next) := by
  have held : parent.page ∈ ({parent.page} : Finset ℕ) := Finset.mem_singleton_self _
  refine upgrade_holds (fun s => (Busy i {parent.page} s ∧
      Leads t w parent.page key node.page pos s.store ∧ φ s.store) ∧
      Sees i node (fun st => st.page node.page = n) s)
    (below_stable.and (sees_stable known)) (fun _ _ here => idle_order here.1.1)
    (busy_restart short fun s _ here => here.1.1) ?_ ?_
  · rintro s inv ⟨⟨busy, above, sees⟩, seen⟩ free version
    have same : s.locks.Unchanged parent := ⟨free, version⟩
    exact ⟨above.there, ⟨busy.lock, above.unchanged same, seen.unchanged same⟩, sees.lockX free⟩
  refine upgrade_holds (fun s => node.page ≠ parent.page ∧ Busy i {node.page, parent.page} s ∧
      Hangs t w parent.page node.page pos s.store ∧ OnPath t w key node.page n s.store ∧ φ s.store)
    ((held_stable ((leads_local.kept held).and (known.kept held))).and (sees_stable (local_page (· = n))))
    ?_ ((unlock_restart short).weaken fun s _ here => here.1.1) ?_ (Outline.Holds.given rest)
  · rintro s inv ⟨⟨busy, leads, _⟩, _⟩ q mine
    rw [Finset.mem_singleton.mp ((busy.holding q).mp mine)]
    exact (leads.child inv).1.before
  rintro s inv ⟨⟨busy, leads, seen⟩, sees⟩ free version
  obtain ⟨hangs, covers⟩ := leads.child inv
  refine ⟨sees.there, fun same => ?_, busy.lockX, hangs, ⟨covers, sees.unchanged ⟨free, version⟩⟩, seen⟩
  have mine := (busy.holding parent.page).mpr held
  rw [← same, show s.locks.holder node.page = none from free] at mine
  cases mine

section Split
variable {s : Store} {key : Key} {p q : ℕ}

theorem OnPath.full (here : OnPath t w key p n s) {payloadLen : ℕ}
    (none : n.hasSpaceFor key.length payloadLen = false) (cap : key.length + payloadLen ≤ n.entryCap) :
    Full (s.page p) := by
  obtain ⟨⟨l, ⟨live, level, wf, hp, _⟩, has⟩, rfl⟩ := here
  have valid := (wf.formed p hp).valid
  obtain ⟨low, high⟩ := has_covers has
  have long : (s.page p).prefixLen ≤ key.length := by
    rw [valid.toCoded.prefixLen]
    exact within_long low high
  exact full_of_no_space valid long cap none

variable (ordered : t.splitOrdered = false)
include ordered

theorem splitBelow_holds (below : q ≠ metadataPageId) (other : p ≠ q) :
    (outline t w ops).Holds i
      (fun s => Busy i {p, q} s ∧ Hangs t w q p pos s.store ∧ Full (s.store.page p)) (splitBelow t i q p) := by
  have hp : p ∈ ({p, q} : Finset ℕ) := Finset.mem_insert_self _ _
  have hq : q ∈ ({p, q} : Finset ℕ) := Finset.mem_insert_of_mem (Finset.mem_singleton_self q)
  have away : p ∉ ({q} : Finset ℕ) := fun mem => other (Finset.mem_singleton.mp mem)
  have unlock : ∀ goal : Goal, goal.Short → (outline t w ops).Holds i (Busy i {p, q})
      (unfixX p <| unfixX q <| .goto (.descend goal) : Code) := by
    intro goal short
    exact busy_unfixX hp (Finset.erase_insert away) (unlock_restart short)
  refine Outline.Holds.act (held_stable ((hangs_kept hq hp).and ((local_page Full).kept hp)))
    (fun _ _ _ => trivial) ?_ ?_
  · intro s inv here e none
    split at none
    · cases none
    · cases none
  rintro s inv ⟨busy, hangs, full⟩ _ e s' move
  rcases hangs.split inv.tree ordered below full with eq | ⟨store, eq, grown⟩ | ⟨sep, eq, short⟩
  · rw [eq] at move ⊢
    cases move
    exact ⟨inv, fun _ _ => .refl, trivial⟩
  · rw [eq] at move ⊢
    cases move
    obtain ⟨inv', keeps, busy'⟩ := busy.grows inv grown (Finset.Subset.refl _)
    refine ⟨inv', keeps, ?_⟩
    have new : s.store.allocCount ∉ ({p, q} : Finset ℕ) := by
      intro mem
      exact absurd (inv.held_there ((busy.holding _).mpr mem)) (lt_irrefl _)
    exact busy_unfixX (Finset.mem_insert_self _ _) (Finset.erase_insert new) (unlock .leaf short_leaf) _ inv'
      busy'
  · rw [eq] at move ⊢
    cases move
    exact ⟨inv, fun _ _ => .refl, unlock (.page q sep) short s inv busy⟩

theorem trySplit_holds (other : p ≠ q) :
    (outline t w ops).Holds i
      (fun s => Busy i {p, q} s ∧ Hangs t w q p pos s.store ∧ Full (s.store.page p)) (trySplit t i q p) := by
  have hp : p ∈ ({p, q} : Finset ℕ) := Finset.mem_insert_self _ _
  have hq : q ∈ ({p, q} : Finset ℕ) := Finset.mem_insert_of_mem (Finset.mem_singleton_self q)
  by_cases top : q = metadataPageId
  · subst top
    rw [trySplit, if_pos rfl]
    refine Outline.Holds.act (held_stable ((hangs_kept hq hp).and ((local_page Full).kept hp)))
      (fun _ _ _ => trivial) ?_ ?_
    · intro s inv here e none
      split at none
      · cases none
      · cases none
    rintro s inv ⟨busy, hangs, full⟩ _ e s' move
    have root := hangs.root
    by_cases none : s.store.virtCount ≤ s.store.allocCount
    · have eq : t.splitParent s.store p metadataPageId = Outcome.exits := by
        rw [Tree.splitParent, if_pos rfl, allocPage_exits none]
        rfl
      rw [eq] at move ⊢
      cases move
      exact ⟨inv, fun _ _ => .refl, trivial⟩
    · have space := not_le.mp none
      have eq : t.splitParent s.store p metadataPageId =
          Outcome.done (s.store.allocCount, t.newRoot s.store) := by
        rw [Tree.splitParent, if_pos rfl, allocPage_done space, ← root]
        rfl
      rw [eq] at move ⊢
      cases move
      obtain ⟨grown, hangs'⟩ := newRoot_grown inv.tree space
      obtain ⟨inv', keeps, busy'⟩ := busy.grows inv grown (Finset.singleton_subset_iff.mpr hq)
      have there : ∀ x ∈ ({p, metadataPageId} : Finset ℕ), x < s.store.allocCount :=
        fun x mem => inv.held_there ((busy.holding x).mpr mem)
      have low := there p hp
      have high := there metadataPageId hq
      refine ⟨inv', keeps, ?_⟩
      generalize new : s.store.allocCount = r at *
      have held : (outline t w ops).Holds i (fun s => Busy i (insert r {p, metadataPageId}) s ∧
          Hangs t w r p 0 s.store ∧ Full (s.store.page p))
          (unfixX metadataPageId <| splitBelow t i r p) := by
        refine unfixX_holds (fun s => Busy i {p, r} s ∧ Hangs t w r p 0 s.store ∧ Full (s.store.page p))
          (held_stable ((hangs_kept (Finset.mem_insert_self _ _)
          (Finset.mem_insert_of_mem hp)).and ((local_page Full).kept (Finset.mem_insert_of_mem hp)))) ?_
          (splitBelow_holds ordered (Nat.ne_of_gt high) (Nat.ne_of_lt low))
        rintro s inv ⟨busy, here⟩
        refine ⟨(busy.holding _).mpr (Finset.mem_insert_of_mem hq), ?_, here⟩
        have left : (insert r {p, metadataPageId} : Finset ℕ).erase metadataPageId = {p, r} := by
          ext x
          simp only [Finset.mem_erase, Finset.mem_insert, Finset.mem_singleton]
          omega
        rw [← left]
        exact busy.unlockX
      refine held _ inv' ⟨busy', by rwa [root] at hangs', ?_⟩
      rwa [newRoot_page_ne (by omega)]
  · rw [trySplit, if_neg top]
    exact splitBelow_holds ordered top other

/-- A page that has no space for the entry that is to come there. -/
theorem lockAndSplit_holds {goal : Goal} (short : goal.Short) {payloadLen : ℕ}
    (none : n.hasSpaceFor (goal.key (ops i)).length payloadLen = false)
    (cap : (goal.key (ops i)).length + payloadLen ≤ n.entryCap) :
    (outline t w ops).Holds i (Below t w i (goal.key (ops i)) parent node pos n)
      (lockAndSplit t i goal parent node) := by
  have locked : (outline t w ops).Holds i (fun s =>
      Below t w i (goal.key (ops i)) parent node pos n s ∧ Sees i parent (fun _ => True) s)
      (lockAndSplit t i goal parent node) := by
    refine lockBoth_holds short local_true fun other => ?_
    exact fun s inv here =>
      trySplit_holds ordered other s inv ⟨here.1, here.2.1, here.2.2.1.full none cap⟩
  exact locked.weaken fun s _ here => ⟨here, here.2.1.imp fun _ => trivial⟩

end Split

section Calls
variable {key : Key}

theorem insertLeaf_holds {payload : Payload} (ordered : t.splitOrdered = false)
    (same : ops i = .insert key payload) (acceptable : Acceptable w key payload) (outer : n.isInner = false) :
    (outline t w ops).Holds i (Below t w i (callKey (ops i)) parent node pos n)
      (insertLeaf t i key payload parent node n) := by
  have about : callKey (ops i) = key := congrArg callKey same
  rw [insertLeaf]
  split
  · rename_i space
    rw [← same]
    refine onlyLeaf_holds outer (fun _ none => nomatch none) fun s inv here granted => ?_
    obtain ⟨on, has⟩ := here.bottom outer
    rw [about] at has
    have absent : (mapOf s.history).lookup key = none := by
      have granted : New (ops i) (mapOf s.history) := granted
      rw [same] at granted
      exact granted
    have changed := insertInPage_changed inv.tree on has acceptable absent (by rw [here.2]; exact space)
    rw [same]
    exact ⟨changed, rfl⟩
  · rename_i full
    have leaf : n.isLeaf = true := by simpa [isInner] using outer
    have none : n.hasSpaceFor (Goal.leaf.key (ops i)).length payload.length = false := by
      rw [Goal.key, about]
      exact Bool.eq_false_iff.mpr full
    have cap : (Goal.leaf.key (ops i)).length + payload.length ≤ n.entryCap := by
      rw [Goal.key, about, entryCap, leaf, acceptable.width]
      exact acceptable.small
    exact lockAndSplit_holds ordered short_leaf none cap

theorem OnPath.removes {s : Shared} {p : ℕ} (here : OnPath t w (callKey (ops i)) p n s.store)
    (same : ops i = .remove key) (outer : n.isInner = false) (found : (n.lowerBound key).2 = true)
    (inv : Inv t w ops s) : OnLevel t w s.store p 0 ∧ (s.store.view p).fences.Has key ∧
      Answer.bool true = (mapOf s.history).answer (ops i) := by
  have about : callKey (ops i) = key := congrArg callKey same
  have lookup := here.lookup outer inv
  obtain ⟨on, has⟩ := here.bottom outer
  rw [about] at has lookup
  rw [if_pos found] at lookup
  refine ⟨on, has, ?_⟩
  rw [same]
  refine congrArg Answer.bool ?_
  rw [lookup]
  rfl

/-- The leaf, its parent and its right neighbour locked, and the entry removed. -/
theorem mergeLeaf_holds {p : BTreeNode} (same : ops i = .remove key) (outer : n.isInner = false)
    (found : (n.lowerBound key).2 = true)
    (underfull : n.freeSpaceAfterCompaction + ((n.slotAt (n.lowerBound key).1).keyLen +
      (n.slotAt (n.lowerBound key).1).payloadLen) ≥ underFullSize ∧ parent.page ≠ metadataPageId)
    (several : p.count ≥ 2 ∧ pos + 1 < p.count) :
    (outline t w ops).Holds i (fun s => Below t w i (callKey (ops i)) parent node pos n s ∧
        Sees i parent (fun st => st.page parent.page = p) s)
      (upgrade i parent (.goto (.descend .leaf)) <|
        upgrade i node (unfixX parent.page <| .goto (.descend .leaf)) <|
        .act .quiet (fun _ s => some s) fun _ s =>
          let rightLocked := (s.store.page parent.page).getChild (pos + 1)
          fixX i rightLocked <|
            change i (ops i) node.page (some (n.lowerBound key).1)
              (fun s => merged s parent.page pos node.page (n.lowerBound key).1) <|
            unfixX rightLocked <| unfixX node.page <| unfixX parent.page <|
            .stop (.answered (.bool true))) := by
  refine lockBoth_holds short_leaf (local_page (· = p)) fun other => ?_
  have hp : node.page ∈ ({node.page, parent.page} : Finset ℕ) := Finset.mem_insert_self _ _
  have hq : parent.page ∈ ({node.page, parent.page} : Finset ℕ) :=
    Finset.mem_insert_of_mem (Finset.mem_singleton_self _)
  have away : node.page ∉ ({parent.page} : Finset ℕ) := fun mem => other (Finset.mem_singleton.mp mem)
  have kept : ∀ pages : Finset ℕ, node.page ∈ pages → parent.page ∈ pages → Kept t w pages fun s =>
      Hangs t w parent.page node.page pos s ∧ OnPath t w (callKey (ops i)) node.page n s ∧
        s.page parent.page = p :=
    fun pages hp hq => (hangs_kept hq hp).and ((onPath_local.kept hp).and ((local_page (· = p)).kept hq))
  have rest : (outline t w ops).Holds i
      (fun s => Busy i {node.page, parent.page} s ∧ Hangs t w parent.page node.page pos s.store ∧
        OnPath t w (callKey (ops i)) node.page n s.store ∧ s.store.page parent.page = p)
      (fixX i (p.getChild (pos + 1)) <|
        change i (ops i) node.page (some (n.lowerBound key).1)
          (fun s => merged s parent.page pos node.page (n.lowerBound key).1) <|
        unfixX (p.getChild (pos + 1)) <| unfixX node.page <| unfixX parent.page <|
        .stop (.answered (.bool true))) := by
    refine fixX_holds (fun s => p.getChild (pos + 1) ∉ ({node.page, parent.page} : Finset ℕ) ∧
        Busy i {p.getChild (pos + 1), node.page, parent.page} s ∧
        Hangs t w parent.page node.page pos s.store ∧ OnPath t w (callKey (ops i)) node.page n s.store ∧
        s.store.page parent.page = p) (held_stable (kept _ hp hq)) ?_ ?_ (Outline.Holds.given fun new => ?_)
    · rintro s inv ⟨busy, hangs, path, page⟩ q mine
      have after := hangs.before_right underfull.2 (by rw [page]; exact several.2)
      rw [page] at after
      rcases Finset.mem_insert.mp ((busy.holding q).mp mine) with same | same
      · rw [same]
        exact after
      · rw [Finset.mem_singleton.mp same]
        exact fun live level wf => (hangs.before live level wf).trans (after live level wf)
    · rintro s inv ⟨busy, hangs, path, page⟩ free
      have there := hangs.right underfull.2 (by rw [page]; exact several.2)
      rw [page] at there
      refine ⟨there, fun held => ?_, busy.lockX, hangs, path, page⟩
      have mine := (busy.holding _).mpr held
      rw [show s.locks.holder _ = none from free] at mine
      cases mine
    · have hp' := Finset.mem_insert_of_mem (b := p.getChild (pos + 1)) hp
      have hq' := Finset.mem_insert_of_mem (b := p.getChild (pos + 1)) hq
      refine change_holds (held_stable (kept _ hp' hq')) ?_ ?_
        (done_unfixX (Finset.mem_insert_self _ _) (Finset.erase_insert new)
          (done_unfixX hp (Finset.erase_insert away)
            (done_unfixX (Finset.mem_singleton_self _) (Finset.erase_singleton _) done_stop)))
      · rintro s inv ⟨busy, hangs, path, page⟩
        obtain ⟨on, has⟩ := path.bottom outer
        refine ⟨(busy.holding _).mpr hp', on, has, ?_⟩
        rw [path.2, same]
        exact search_slot found
      · rintro s inv ⟨busy, hangs, path, page⟩ _
        obtain ⟨on, has, answer⟩ := path.removes same outer found inv
        have changed := merged_changed inv.tree on has (by rw [path.2]; exact found) hangs
          (by rw [path.2]; exact underfull.1) underfull.2 (by rw [page]; exact several.1)
          (by rw [page]; exact several.2)
        rw [path.2, page] at changed
        refine ⟨busy, ?_, answer⟩
        rw [same]
        exact changed
  refine Outline.Holds.look lawful (held_stable (kept _ hp hq)) (fun _ _ _ => trivial)
    (fun _ _ _ _ none => nomatch none) ?_ ?_
  · intro e s s' move
    exact (Option.some.inj move).symm
  · rintro s inv ⟨busy, hangs, path, page⟩ e _
    dsimp only
    rw [page]
    exact rest s inv ⟨busy, hangs, path, page⟩

theorem removeLeaf_holds (same : ops i = .remove key) (outer : n.isInner = false) :
    (outline t w ops).Holds i (Below t w i (callKey (ops i)) parent node pos n)
      (removeLeaf i key parent node pos n) := by
  have about : callKey (ops i) = key := congrArg callKey same
  rw [removeLeaf]
  dsimp only
  split
  · -- the answer is that of the moment when the leaf was read, if the parent has not changed since
    rename_i missing
    have missing : (n.lowerBound key).2 = false := by simpa using missing
    refine check_holds (fun s => Busy i ∅ s ∧ Seen i s.locks parent (Answered i (ops i) (.bool false) s.history))
      below_stable (busy_restart short_leaf fun s _ here => here.1) ?_
      (check_holds _ ?_ (busy_restart short_leaf fun s _ here => here.1) ?_ answered_stop)
    · rintro s inv ⟨busy, above, sees⟩ fresh
      refine ⟨busy, above.seen.version, fun valid => ?_⟩
      have path : OnPath t w (callKey (ops i)) node.page n s.store :=
        ⟨((above.seen.valid valid).child inv).2, sees.unchanged fresh⟩
      refine path.answered outer inv busy fun m lookup => ?_
      rw [about, if_neg (Bool.eq_false_iff.mp missing)] at lookup
      rw [same]
      refine ⟨congrArg Answer.bool ?_, lookup⟩
      rw [lookup]
      rfl
    · rintro s s' inv inv' keeps ⟨busy, seen⟩
      have idle : (outline t w ops).Stable i (Busy i ∅) := busy_stable
      have still : (outline t w ops).Stable i fun s => Answered i (ops i) (.bool false) s.history :=
        answered_stable
      exact ⟨idle s s' inv inv' keeps busy, seen.later keeps.locks.toLater fun _ => still s s' inv inv' keeps⟩
    · exact fun s _ here fresh => here.2.valid fresh.valid
  · rename_i present
    have found : (n.lowerBound key).2 = true := by simpa using present
    rw [← same]
    have simple : (outline t w ops).Holds i (Below t w i (callKey (ops i)) parent node pos n)
        (upgrade i node (.goto (.descend .leaf)) <|
          check parent (unfixX node.page <| .goto (.descend .leaf)) <|
          change i (ops i) node.page (some (n.lowerBound key).1)
            (fun s => s.put node.page ((s.page node.page).removeSlot (n.lowerBound key).1)) <|
          unfixX node.page <| .stop (.answered (.bool true))) := by
      refine onlyLeaf_holds outer (by rw [about]; exact search_slot found) fun s inv here _ => ?_
      obtain ⟨on, has, answer⟩ := here.removes same outer found inv
      have changed := removeSlot_changed inv.tree on has (by rw [here.2]; exact found)
      rw [here.2] at changed ⊢
      refine ⟨?_, answer⟩
      rw [same]
      exact changed
    split
    · rename_i underfull
      refine readPage_holds (fun p s => Below t w i (callKey (ops i)) parent node pos n s ∧
        Sees i parent (fun st => st.page parent.page = p) s) below_stable
        (fun s p _ here page => ⟨here, here.2.1.now here.1 page⟩) fun p => ?_
      split
      · rename_i several
        exact mergeLeaf_holds same outer found underfull several
      · exact simple.weaken fun s _ here => here.1
    · exact simple

theorem coupledLeaf_holds (ordered : t.splitOrdered = false) {call : Call} (same : ops i = call)
    (acceptable : ∀ key payload, call = .insert key payload → Acceptable w key payload) {goal : Goal}
    (short : goal.Short) (stops : n.isInner = true → goal.stopsAt node.page = true) :
    (outline t w ops).Holds i (Below t w i (goal.key (ops i)) parent node pos n)
      (coupledLeaf t i call goal parent node pos n) := by
  cases goal with
  | leaf =>
    have outer : n.isInner = false := Bool.eq_false_iff.mpr fun inner => Bool.false_ne_true (stops inner)
    have again : (outline t w ops).Holds i (Below t w i (callKey (ops i)) parent node pos n)
        (.goto (.descend .leaf) : Code) := busy_restart short_leaf fun s _ here => here.1
    cases call with
    | insert key payload => exact insertLeaf_holds ordered same (acceptable key payload rfl) outer
    | remove key => exact removeLeaf_holds same outer
    | lookup key => exact again
    | lookupInto key payloadOutSize => exact again
    | updateInPlace key fn => exact again
  | page toSplit sepKey =>
    rw [coupledLeaf]
    split
    · rename_i full
      have cap : (Goal.key (.page toSplit sepKey) (ops i)).length + pidSize ≤ n.entryCap := by
        have len : sepKey.length ≤ maxKeyLen := short
        rw [Goal.key, entryCap]
        split
        · exact le_trans (Nat.add_le_add_right len pidSize) (by decide)
        · exact Nat.add_le_add_right len pidSize
      exact lockAndSplit_holds ordered short full.2 cap
    · have again : ∀ {pre : Shared → Prop}, (∀ s, pre s → Busy i ∅ s) →
          (outline t w ops).Holds i pre (.goto (.descend (.page toSplit sepKey)) : Code) :=
        fun idle => busy_restart short fun s _ here => idle s here
      refine check_holds (Below t w i sepKey parent node pos n) below_stable (again fun _ here => here.1)
        (fun s _ here _ => here) ?_
      exact check_holds (Busy i ∅) below_stable (again fun _ here => here.1) (fun s _ here _ => here.1)
        (busy_restart short_leaf fun _ _ idle => idle)

end Calls
end BTree.Threads
