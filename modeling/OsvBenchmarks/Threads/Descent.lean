import OsvBenchmarks.Threads.Rules

/-!
The blocks of a call keep to the outline: the way down. A guard that is valid
still has seen the child that leads to the key, and the child covers it.
-/
namespace BTree.Threads
open BTree FenceTree BTreeNode Blocks Optimistic

variable {t : Tree} {w : ℕ} {ops : ℕ → Call} {i : ℕ}

theorem start_holds :
    (outline t w ops).Holds i (AtLabel t w ops i .start) (code t i (ops i) .start) := by
  refine Outline.Holds.act (lawful.label i .start) (fun _ _ _ => trivial) (fun _ _ _ _ none => nomatch none) ?_
  rintro s inv ⟨none, holding⟩ _ e s' move
  cases move
  refine ⟨?_, fun j other => ⟨.refl fun _ => .refl, le_refl _, [.began i], rfl, ?_⟩, trivial, ?_⟩
  · refine ⟨?_, inv.fresh, ?_, fun k c mem => ?_⟩
    · rw [mapOf_began]
      exact inv.tree
    · rw [List.filterMap_append]
      exact (List.append_nil _).symm ▸ inv.once
    · rcases List.mem_append.mp mem with old | new
      · obtain ⟨same, after⟩ := inv.own k c old
        exact ⟨same, after.trans (List.sublist_append_left _ _)⟩
      · cases List.mem_singleton.mp new
  · intro e mem
    rw [List.mem_singleton.mp mem]
    exact other.symm
  · refine ⟨List.mem_append_right _ (List.mem_singleton_self _), fun c mem => ?_, holding⟩
    rcases List.mem_append.mp mem with old | new
    · exact none _ old rfl
    · cases List.mem_singleton.mp new

section Down
variable {s : Shared} {p : ℕ} {key : Key} {n : BTreeNode}

theorem Covers.next (covers : Covers t w p key s.store) (inv : Inv t w ops s) (same : s.store.page p = n)
    (inner : n.isInner = true) : Leads t w p key (step n key).2 (step n key).1 s.store ∧
      Covers t w (step n key).2 key s.store := by
  subst same
  have leads := covers.leads inner
  exact ⟨leads, (leads.child inv).2⟩

theorem top_local {top root : ℕ} (above : top = metadataPageId) :
    Local t w top fun s => s.roots t.slotId = root :=
  fun _ _ stays here => (stays.root above).trans here

theorem descend_holds (goal : Goal) :
    (outline t w ops).Holds i (AtLabel t w ops i (.descend goal)) (code t i (ops i) (.descend goal)) := by
  refine Outline.Holds.given fun short => ?_
  rw [code]
  refine init_holds (fun g s => Busy i ∅ s ∧ Sees i g (fun _ => True) s) busy_stable (fun _ idle => idle)
    (fun s inv busy => ⟨inv.top_there, busy, sees_guard inv.top_there trivial⟩) fun parent top => ?_
  refine readRoot_holds
    (fun root s => Busy i ∅ s ∧ Sees i parent (fun st => st.roots t.slotId = root) s)
    (busy_stable.and (sees_stable local_true)) (fun s root _ here same => ⟨here.1, here.2.now here.1 same⟩)
    fun root => ?_
  have kept : (outline t w ops).Stable i fun s =>
      Busy i ∅ s ∧ Sees i parent (fun st => st.roots t.slotId = root) s :=
    busy_stable.and (sees_stable (top_local top))
  have again : ∀ {pre : Shared → Prop}, (∀ s, pre s → Busy i ∅ s) →
      (outline t w ops).Holds i pre (.goto (.descend goal) : Code) :=
    fun idle => busy_restart short fun s _ here => idle s here
  refine check_holds (fun s => (Busy i ∅ s ∧ Sees i parent (fun st => st.roots t.slotId = root) s) ∧
    root < s.store.allocCount) kept (again fun _ here => here.1) ?_ ?_
  · rintro s inv ⟨busy, sees⟩ same
    have leads : Leads t w parent.page [] root 0 s.store := Or.inl ⟨top, sees.unchanged same⟩
    exact ⟨⟨busy, sees⟩, (leads.child inv).2.there⟩
  refine init_holds (fun g s =>
    (Busy i ∅ s ∧ Sees i parent (fun st => st.roots t.slotId = root) s) ∧ Sees i g (fun _ => True) s)
    (kept.and there_stable) (fun _ here => here.1.1)
    (fun s _ here => ⟨here.2, here.1, sees_guard here.2 trivial⟩) fun node here => ?_
  split
  · refine Outline.Holds.goto ?_
    rintro s inv ⟨⟨busy, sees⟩, child⟩
    exact ⟨short, busy, sees.imp fun same => Or.inl ⟨top, same.trans here.symm⟩, child⟩
  · refine check_holds (AtLabel t w ops i (.alone node)) (kept.and (sees_stable local_true))
      (again fun _ here => here.1.1) ?_ (Outline.Holds.goto fun _ _ here => here)
    rintro s inv ⟨⟨busy, sees⟩, child⟩ same
    have leads : Leads t w parent.page (callKey (ops i)) node.page 0 s.store :=
      Or.inl ⟨top, (sees.unchanged same).trans here.symm⟩
    exact ⟨busy, child.always (leads.child inv).2⟩

def OnPath (t : Tree) (w : ℕ) (key : Key) (p : ℕ) (n : BTreeNode) (s : Store) : Prop :=
  Covers t w p key s ∧ s.page p = n

theorem onPath_local : Local t w p (OnPath t w key p n) :=
  fun s s' stays => And.imp (covers_local s s' stays) (local_page (· = n) s s' stays)

theorem alone_holds (node : Guard ℕ)
    (leaf : ∀ n : BTreeNode, n.isInner = false → (outline t w ops).Holds i
      (fun s => Busy i ∅ s ∧ Sees i node (OnPath t w (callKey (ops i)) node.page n) s)
      (plainLeaf i (ops i) node n)) :
    (outline t w ops).Holds i (AtLabel t w ops i (.alone node)) (code t i (ops i) (.alone node)) := by
  rw [code]
  refine readPage_holds
    (fun n s => Busy i ∅ s ∧ Sees i node (OnPath t w (callKey (ops i)) node.page n) s)
    (lawful.label i (.alone node)) ?_ fun n => ?_
  · rintro s n inv ⟨busy, sees⟩ same
    exact ⟨busy, sees.now busy fun fresh => ⟨sees.unchanged fresh, same fresh⟩⟩
  have kept : (outline t w ops).Stable i fun s =>
      Busy i ∅ s ∧ Sees i node (OnPath t w (callKey (ops i)) node.page n) s :=
    busy_stable.and (sees_stable onPath_local)
  have again : ∀ {pre : Shared → Prop}, (∀ s, pre s → Busy i ∅ s) →
      (outline t w ops).Holds i pre (.goto (.descend .leaf) : Code) :=
    fun idle => busy_restart trivial fun s _ here => idle s here
  split
  · rename_i inner
    refine check_holds (fun s =>
        (Busy i ∅ s ∧ Sees i node (OnPath t w (callKey (ops i)) node.page n) s) ∧
        (step n (callKey (ops i))).2 < s.store.allocCount) kept (again fun _ here => here.1) ?_ ?_
    · rintro s inv ⟨busy, sees⟩ same
      obtain ⟨covers, page⟩ := sees.unchanged same
      exact ⟨⟨busy, sees⟩, (covers.next inv page inner).2.there⟩
    refine init_holds (fun g s =>
        (Busy i ∅ s ∧ Sees i node (OnPath t w (callKey (ops i)) node.page n) s) ∧
        Sees i g (fun _ => True) s) (kept.and there_stable)
      (fun _ here => here.1.1) (fun s _ here => ⟨here.2, here.1, sees_guard here.2 trivial⟩) fun child here => ?_
    refine check_holds (AtLabel t w ops i (.alone child)) (kept.and (sees_stable local_true))
      (again fun _ here => here.1.1) ?_ (Outline.Holds.goto fun _ _ here => here)
    rintro s inv ⟨⟨busy, sees⟩, new⟩ same
    obtain ⟨covers, page⟩ := sees.unchanged same
    have next := (covers.next inv page inner).2
    rw [← here] at next
    exact ⟨busy, new.always next⟩
  · rename_i outer
    exact leaf n (Bool.eq_false_iff.mpr outer)

/-- What insert and remove have seen when they have read a page below its parent. -/
def Below (t : Tree) (w : ℕ) (i : ℕ) (key : Key) (parent node : Guard ℕ) (pos : ℕ) (n : BTreeNode) (s : Shared) :
    Prop :=
  Busy i ∅ s ∧ Sees i parent (Leads t w parent.page key node.page pos) s ∧
    Sees i node (fun st => st.page node.page = n) s

theorem below_stable {parent node : Guard ℕ} {pos : ℕ} :
    (outline t w ops).Stable i (Below t w i key parent node pos n) :=
  busy_stable.and ((sees_stable leads_local).and (sees_stable (local_page (· = n))))

theorem both_holds (goal : Goal) (parent node : Guard ℕ) (pos : ℕ)
    (leaf : ∀ n : BTreeNode, goal.Short → (n.isInner = true → goal.stopsAt node.page = true) →
      (outline t w ops).Holds i (Below t w i (goal.key (ops i)) parent node pos n)
        (coupledLeaf t i (ops i) goal parent node pos n)) :
    (outline t w ops).Holds i (AtLabel t w ops i (.both goal parent node pos))
      (code t i (ops i) (.both goal parent node pos)) := by
  refine Outline.Holds.given fun short => ?_
  rw [code]
  refine readPage_holds (fun n => Below t w i (goal.key (ops i)) parent node pos n)
    (busy_stable.and ((sees_stable leads_local).and (sees_stable local_true)))
    (fun s n inv here same => ⟨here.1, here.2.1, here.2.2.now here.1 same⟩) fun n => ?_
  have again : ∀ {pre : Shared → Prop}, (∀ s, pre s → Busy i ∅ s) →
      (outline t w ops).Holds i pre (.goto (.descend goal) : Code) :=
    fun idle => busy_restart short fun s _ here => idle s here
  split
  · rename_i further
    obtain ⟨inner, _⟩ := further
    have kept : (outline t w ops).Stable i fun s =>
        Busy i ∅ s ∧ Sees i node (OnPath t w (goal.key (ops i)) node.page n) s :=
      busy_stable.and (sees_stable onPath_local)
    refine check_holds (fun s => Busy i ∅ s ∧ Sees i node (OnPath t w (goal.key (ops i)) node.page n) s)
      below_stable (again fun _ here => here.1) ?_ ?_
    · rintro s inv ⟨busy, above, sees⟩ same
      exact ⟨busy, sees.imp fun page => ⟨((above.unchanged same).child inv).2, page⟩⟩
    refine check_holds (fun s => (Busy i ∅ s ∧ Sees i node
        (Leads t w node.page (goal.key (ops i)) (step n (goal.key (ops i))).2 (step n (goal.key (ops i))).1) s) ∧
        (step n (goal.key (ops i))).2 < s.store.allocCount) kept (again fun _ here => here.1) ?_ ?_
    · rintro s inv ⟨busy, sees⟩ same
      obtain ⟨covers, page⟩ := sees.unchanged same
      obtain ⟨leads, next⟩ := covers.next inv page inner
      exact ⟨⟨busy, sees.always leads⟩, next.there⟩
    refine init_holds (fun g s => (Busy i ∅ s ∧ Sees i node
        (Leads t w node.page (goal.key (ops i)) (step n (goal.key (ops i))).2 (step n (goal.key (ops i))).1) s) ∧
        Sees i g (fun _ => True) s) ((busy_stable.and (sees_stable leads_local)).and there_stable)
      (fun _ here => here.1.1) (fun s _ here => ⟨here.2, here.1, sees_guard here.2 trivial⟩) fun child here => ?_
    refine Outline.Holds.goto ?_
    rintro s inv ⟨⟨busy, sees⟩, new⟩
    refine ⟨short, busy, ?_, new⟩
    rw [here]
    exact sees
  · rename_i stops
    refine leaf n short fun inner => ?_
    simpa [inner] using stops

end Down
end BTree.Threads
