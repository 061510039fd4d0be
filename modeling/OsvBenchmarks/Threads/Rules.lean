import OsvBenchmarks.Threads.Changes

/-!
One rule for each action: what it needs of the assertion before it, what the
thread knows after it, and that the other threads' assertions are kept.
-/
namespace BTree.Threads
open BTree FenceTree BTreeNode Blocks Optimistic Locks

variable {t : Tree} {w : ℕ} {ops : ℕ → Call} {i j p : ℕ} {s : Shared} {g : Guard ℕ}

theorem OnLevel.there {s : Store} {l : ℕ} (on : OnLevel t w s p l) : p < s.allocCount := by
  obtain ⟨live, level, wf, hp, _⟩ := on
  exact (wf.ids p hp).2

section Inv
variable (inv : Inv t w ops s)
include inv

theorem Inv.top_there : metadataPageId < s.store.allocCount := by
  obtain ⟨live, level, wf, _⟩ := inv.tree
  obtain ⟨low, high⟩ := wf.ids _ wf.shape.root_live
  exact lt_trans low high

theorem Inv.isValidPID (there : p < s.store.allocCount) : s.store.isValidPID p = true := by
  obtain ⟨live, level, wf, _⟩ := inv.tree
  exact decide_eq_true (lt_of_lt_of_le there wf.counters.1)

theorem Inv.held_there (held : s.locks.holder p = some i) : p < s.store.allocCount := by
  by_contra beyond
  have free : s.locks.holder p = none := inv.fresh p (not_lt.mp beyond)
  rw [held] at free
  cases free

theorem Inv.lockX (there : p < s.store.allocCount) : Inv t w ops (s.lockX p i) where
  tree := inv.tree
  fresh q beyond := by
    have other : q ≠ p := Nat.ne_of_gt (lt_of_lt_of_le there beyond)
    simpa [Free, Shared.lockX, Locks.lockX, other] using inv.fresh q beyond
  once := inv.once
  own := inv.own

theorem Inv.unlockX (held : s.locks.holder p = some i) : Inv t w ops (s.unlockX p) where
  tree := inv.tree
  fresh q beyond := by
    have other : q ≠ p := Nat.ne_of_gt (lt_of_lt_of_le (inv.held_there held) beyond)
    simpa [Free, Shared.unlockX, Locks.unlockX, other] using inv.fresh q beyond
  once := inv.once
  own := inv.own

end Inv

theorem Keeps.lockX (free : s.locks.Free p) (other : j ≠ i) : Keeps t w j s (s.lockX p i) :=
  ⟨.lockX free other fun _ => .refl, le_refl _, [], (List.append_nil _).symm, by simp⟩

theorem Keeps.unlockX (held : s.locks.holder p = some i) (other : j ≠ i) :
    Keeps t w j s (s.unlockX p) :=
  ⟨.unlockX held other fun _ => .refl, le_refl _, [], (List.append_nil _).symm, by simp⟩

theorem Busy.grows {store : Store} {pages pages' : Finset ℕ} (busy : Busy i pages s) (inv : Inv t w ops s)
    (grown : Grown t w s.store store (mapOf s.history) pages') (held : pages' ⊆ pages) :
    let s' : Shared := { s with store, locks := s.locks.lockX s.store.allocCount i }
    Inv t w ops s' ∧ (∀ j, j ≠ i → Keeps t w j s s') ∧ Busy i (insert s.store.allocCount pages) s' := by
  intro s'
  have free := inv.fresh _ (le_refl _)
  have busy' : Busy i (insert s.store.allocCount pages) s' :=
    ⟨busy.began, busy.unchanged, busy.holding.lockX⟩
  refine ⟨⟨grown.tree, fun q beyond => ?_, inv.once, inv.own⟩, fun j other => ?_, busy'⟩
  · have beyond : s.store.allocCount + 1 ≤ q := by
      rw [← grown.alloc]
      exact beyond
    have differ : q ≠ s.store.allocCount := by omega
    simpa [Free, s', Locks.lockX, differ] using inv.fresh q (by omega)
  · refine ⟨?_, ?_, [], (List.append_nil _).symm, by simp⟩
    · have locks : Rely (fun _ => True) j s.locks s'.locks := .lockX free other fun _ => trivial
      refine locks.trans (.write other fun q unheld => grown.stays q fun mem => unheld ?_)
        fun _ _ stays => stays
      exact (busy'.holding q).mpr (Finset.insert_subset_insert _ held mem)
    · change s.store.allocCount ≤ store.allocCount
      rw [grown.alloc]
      exact Nat.le_succ _

theorem hangs_kept {pages : Finset ℕ} {q c pos : ℕ} (parent : q ∈ pages) (page : c ∈ pages) :
    Kept t w pages (Hangs t w q c pos) := by
  rintro s s' m ⟨live, level, wf, _⟩ stays hangs
  exact hangs.stays wf (stays q parent) (stays c page)

section Knowledge
variable {φ ψ : Store → Prop} {pages : Finset ℕ}

theorem Busy.lockX (busy : Busy i pages s) : Busy i (insert p pages) (s.lockX p i) :=
  ⟨busy.began, busy.unchanged, busy.holding.lockX⟩

theorem Busy.lock (busy : Busy i ∅ s) : Busy i {p} (s.lockX p i) := by
  have locked : Busy i (insert p ∅) (s.lockX p i) := busy.lockX
  rwa [insert_empty_eq] at locked

theorem Busy.unlockX (busy : Busy i pages s) : Busy i (pages.erase p) (s.unlockX p) :=
  ⟨busy.began, busy.unchanged, busy.holding.unlockX⟩

theorem Sees.unchanged (sees : Sees i g φ s) (same : s.locks.Unchanged g) : φ s.store :=
  sees.seen.valid same.valid

theorem Sees.lockX (sees : Sees i g φ s) (free : s.locks.Free p) : Sees i g φ (s.lockX p i) :=
  ⟨sees.there, sees.seen.later (Later.lockX free fun _ => trivial : Later (fun _ => True) i _ _) fun _ h => h⟩

/-- A thread without locks has seen what is there now, unless somebody has locked the page. -/
theorem Sees.now (sees : Sees i g φ s) (busy : Busy i ∅ s) (here : s.locks.Unchanged g → ψ s.store) :
    Sees i g ψ s :=
  ⟨sees.there, sees.seen.version, fun valid => here (busy.holding.unchanged valid)⟩

theorem Sees.always (sees : Sees i g φ s) (here : ψ s.store) : Sees i g ψ s :=
  ⟨sees.there, sees.seen.version, fun _ => here⟩

theorem Sees.imp (sees : Sees i g φ s) (weaker : φ s.store → ψ s.store) : Sees i g ψ s :=
  ⟨sees.there, sees.seen.version, fun valid => weaker (sees.seen.valid valid)⟩

theorem sees_guard (there : p < s.store.allocCount) (here : φ s.store) : Sees i (s.locks.guard p) φ s :=
  ⟨there, .guard fun _ => here⟩

theorem Leads.child {c pos : ℕ} {key : Key} (leads : Leads t w p key c pos s.store) (inv : Inv t w ops s) :
    Hangs t w p c pos s.store ∧ Covers t w c key s.store := by
  obtain ⟨live, level, wf, _⟩ := inv.tree
  rcases leads with ⟨top, root⟩ | ⟨_, l, on, has, next⟩
  · have hc : c ∈ live := root ▸ wf.shape.root_live
    refine ⟨⟨live, level, wf, hc, Or.inl ⟨top, root.symm⟩⟩, _, ⟨live, level, wf, hc, rfl⟩, ?_⟩
    rw [← root]
    exact wf.rooted.root_has key
  · obtain ⟨hp, lp⟩ := wf.onLevel_iff.mp on
    obtain ⟨hc, covers, _, placed⟩ := wf.rooted.step hp (by omega) has
    obtain ⟨rfl, rfl⟩ := Prod.mk.inj next
    exact ⟨⟨live, level, wf, hc, placed⟩, _, ⟨live, level, wf, hc, rfl⟩, covers⟩

theorem Covers.there {key : Key} {s : Store} (covers : Covers t w p key s) : p < s.allocCount := by
  obtain ⟨l, on, _⟩ := covers
  exact OnLevel.there on

theorem Covers.leads {key : Key} (covers : Covers t w p key s.store) (inner : (s.store.page p).isInner = true) :
    Leads t w p key (step (s.store.page p) key).2 (step (s.store.page p) key).1 s.store := by
  obtain ⟨l, ⟨live, level, wf, hp, rfl⟩, has⟩ := covers
  have above : level p ≠ 0 := by
    rw [← wf.rooted.inner hp]
    simpa [isInner] using inner
  refine Or.inr ⟨Nat.ne_of_gt (wf.ids p hp).1, level p - 1, ⟨live, level, wf, hp, by omega⟩, has, rfl⟩

theorem Covers.leaf {key : Key} (covers : Covers t w p key s.store) (leaf : (s.store.page p).isInner = false) :
    OnLevel t w s.store p 0 ∧ (s.store.view p).fences.Has key := by
  obtain ⟨l, ⟨live, level, wf, hp, rfl⟩, has⟩ := covers
  refine ⟨⟨live, level, wf, hp, ?_⟩, has⟩
  rw [← wf.rooted.leaf hp]
  simpa [isInner] using leaf

end Knowledge

section Actions
variable {pre : Shared → Prop} {restart next : Code} (mid : Shared → Prop)

theorem idle_order (busy : Busy i ∅ s) (q : ℕ) (held : s.locks.holder q = some i) :
    Before t w s.store q p :=
  absurd ((busy.holding q).mp held) (Finset.notMem_empty q)

theorem init_holds {page : ℕ} (mid : Guard ℕ → Shared → Prop) {next : Guard ℕ → Code}
    (stable : (outline t w ops).Stable i pre) (idle : ∀ s, pre s → Busy i ∅ s)
    (got : ∀ s, Inv t w ops s → pre s → page < s.store.allocCount ∧ mid (s.locks.guard page) s)
    (rest : ∀ g, g.page = page → (outline t w ops).Holds i (mid g) (next g)) :
    (outline t w ops).Holds i pre (init page next) := by
  refine Outline.Holds.look lawful stable (fun s _ here => idle_order (idle s here)) ?_ ?_ ?_
  · intro s inv here e none
    split at none
    · rename_i held
      exact Option.ne_none_iff_exists'.mp held.2
    · cases none
  · intro e s s' move
    split at move
    · cases move
    · exact (Option.some.inj move).symm
  · intro s inv here e _
    obtain ⟨there, mid⟩ := got s inv here
    rw [if_pos (Inv.isValidPID inv there)]
    exact rest _ rfl s inv mid

theorem check_holds (stable : (outline t w ops).Stable i pre)
    (fails : (outline t w ops).Holds i pre restart)
    (passes : ∀ s, Inv t w ops s → pre s → s.locks.Unchanged g → mid s)
    (rest : (outline t w ops).Holds i mid next) :
    (outline t w ops).Holds i pre (check g restart next) := by
  refine Outline.Holds.look lawful stable (fun _ _ _ => trivial) (fun _ _ _ _ none => nomatch none) ?_ ?_
  · intro e s s' move
    exact (Option.some.inj move).symm
  · intro s inv here e _
    split
    · rename_i same
      exact rest s inv (passes s inv here same)
    · exact fails s inv here

theorem readPage_holds (mid : BTreeNode → Shared → Prop) {next : BTreeNode → Code}
    (stable : (outline t w ops).Stable i pre)
    (sees : ∀ s n, Inv t w ops s → pre s → (s.locks.Unchanged g → s.store.page g.page = n) → mid n s)
    (rest : ∀ n, (outline t w ops).Holds i (mid n) (next n)) :
    (outline t w ops).Holds i pre (readPage g next) := by
  refine Outline.Holds.look lawful stable (fun _ _ _ => trivial) (fun _ _ _ _ none => nomatch none) ?_ ?_
  · intro e s s' move
    exact (Option.some.inj move).symm
  · intro s inv here e _
    exact rest _ s inv (sees s _ inv here fun same => (if_pos same).symm)

theorem readRoot_holds (mid : ℕ → Shared → Prop) {next : ℕ → Code}
    (stable : (outline t w ops).Stable i pre)
    (sees : ∀ s r, Inv t w ops s → pre s → (s.locks.Unchanged g → s.store.roots t.slotId = r) → mid r s)
    (rest : ∀ r, (outline t w ops).Holds i (mid r) (next r)) :
    (outline t w ops).Holds i pre (readRoot g t.slotId next) := by
  refine Outline.Holds.look lawful stable (fun _ _ _ => trivial) (fun _ _ _ _ none => nomatch none) ?_ ?_
  · intro e s s' move
    exact (Option.some.inj move).symm
  · intro s inv here e _
    exact rest _ s inv (sees s _ inv here fun same => (if_pos same).symm)

theorem upgrade_holds (stable : (outline t w ops).Stable i pre)
    (order : ∀ s, Inv t w ops s → pre s → ∀ q, s.locks.holder q = some i → Before t w s.store q g.page)
    (fails : (outline t w ops).Holds i pre restart)
    (got : ∀ s, Inv t w ops s → pre s → s.locks.Free g.page → s.locks.version g.page = g.version →
      g.page < s.store.allocCount ∧ mid (s.lockX g.page i))
    (rest : (outline t w ops).Holds i mid next) :
    (outline t w ops).Holds i pre (upgrade i g restart next) := by
  refine Outline.Holds.act stable order ?_ fun s inv here _ e s' move => ?_
  · intro s inv here e none
    split at none
    · cases none
    · split at none
      · cases none
      · rename_i held
        exact Option.ne_none_iff_exists'.mp held
  by_cases same : s.locks.version g.page = g.version
  · rw [if_neg (not_not.mpr same)] at move ⊢
    split at move
    · rename_i free
      cases move
      obtain ⟨there, known⟩ := got s inv here free same
      exact ⟨Inv.lockX inv there, fun j other => Keeps.lockX free other,
        rest _ (Inv.lockX inv there) known⟩
    · cases move
  · rw [if_pos same] at move ⊢
    cases move
    exact ⟨inv, fun j _ => Keeps.refl, fails _ inv here⟩

theorem fixX_holds {page : ℕ} (stable : (outline t w ops).Stable i pre)
    (order : ∀ s, Inv t w ops s → pre s → ∀ q, s.locks.holder q = some i → Before t w s.store q page)
    (got : ∀ s, Inv t w ops s → pre s → s.locks.Free page → page < s.store.allocCount ∧ mid (s.lockX page i))
    (rest : (outline t w ops).Holds i mid next) :
    (outline t w ops).Holds i pre (fixX i page next) := by
  refine Outline.Holds.act stable order ?_ fun s inv here _ e s' move => ?_
  · intro s inv here e none
    split at none
    · cases none
    · rename_i held
      exact Option.ne_none_iff_exists'.mp held
  split at move
  · rename_i free
    cases move
    obtain ⟨there, known⟩ := got s inv here free
    exact ⟨Inv.lockX inv there, fun j other => Keeps.lockX free other,
      rest _ (Inv.lockX inv there) known⟩
  · cases move

theorem unfixX_holds {page : ℕ} (stable : (outline t w ops).Stable i pre)
    (held : ∀ s, Inv t w ops s → pre s → s.locks.holder page = some i ∧ mid (s.unlockX page))
    (rest : (outline t w ops).Holds i mid next) :
    (outline t w ops).Holds i pre (unfixX page next) := by
  refine Outline.Holds.act stable (fun _ _ _ => trivial) (fun _ _ _ _ none => nomatch none) fun s inv here _ e s' move => ?_
  cases move
  obtain ⟨held, known⟩ := held s inv here
  exact ⟨Inv.unlockX inv held, fun j other => Keeps.unlockX held other,
    rest _ (Inv.unlockX inv held) known⟩

theorem busy_restart {goal : Goal} (short : goal.Short) (idle : ∀ s, Inv t w ops s → pre s → Busy i ∅ s) :
    (outline t w ops).Holds i pre (.goto (.descend goal) : Code) :=
  Outline.Holds.goto fun s inv here => ⟨short, idle s inv here⟩

theorem busy_unfixX {pages pages' : Finset ℕ} {page : ℕ} (mem : page ∈ pages)
    (left : pages.erase page = pages') (rest : (outline t w ops).Holds i (Busy i pages') next) :
    (outline t w ops).Holds i (Busy i pages) (unfixX page next) := by
  subst left
  exact unfixX_holds _ busy_stable
    (fun _ _ busy => ⟨(busy.holding page).mpr mem, busy.unlockX⟩) rest

end Actions

section Change

structure Done (ops : ℕ → Call) (i : ℕ) (a : Answer) (pages : Finset ℕ) (s : Shared) : Prop where
  answered : Answered i (ops i) a s.history
  holding : s.locks.Holding i pages

variable {a : Answer} {pages : Finset ℕ} {next : Code}

theorem done_stable : (outline t w ops).Stable i (Done ops i a pages) := by
  intro s s' inv inv' keeps done
  have still : (outline t w ops).Stable i fun s => Answered i (ops i) a s.history := answered_stable
  exact ⟨still s s' inv inv' keeps done.answered, done.holding.rely keeps.locks⟩

theorem done_stop : (outline t w ops).Holds i (Done ops i a pages) (.stop (.answered a) : Code) :=
  Outline.Holds.stop fun _ _ done => done.answered

theorem done_unfixX {pages' : Finset ℕ} {page : ℕ} (mem : page ∈ pages)
    (left : pages.erase page = pages') (rest : (outline t w ops).Holds i (Done ops i a pages') next) :
    (outline t w ops).Holds i (Done ops i a pages) (unfixX page next) := by
  subst left
  exact unfixX_holds _ done_stable
    (fun _ _ done => ⟨(done.holding page).mpr mem, done.answered, done.holding.unlockX⟩) rest

theorem Busy.answered (busy : Busy i pages s) (answer : a = (mapOf s.history).answer (ops i))
    (nothing : Rests (ops i) (mapOf s.history)) : Answered i (ops i) a s.history :=
  ⟨s.history, [], (List.append_nil _).symm, busy.began, answer, Or.inl ⟨nothing, busy.unchanged⟩⟩

theorem change_holds {pre : Shared → Prop} {node : ℕ} {slot : Option ℕ} {write : Store → Store}
    (stable : (outline t w ops).Stable i pre)
    (owed : ∀ s, Inv t w ops s → pre s → Owes t w ops i (.changes node slot) s)
    (changes : ∀ s, Inv t w ops s → pre s → Grants ops i (.changes node slot) s → Busy i pages s ∧
      Changed t w s.store (write s.store) ((mapOf s.history).after (ops i)) pages ∧
      a = (mapOf s.history).answer (ops i))
    (rest : (outline t w ops).Holds i (Done ops i a pages) next) :
    (outline t w ops).Holds i pre (change i (ops i) node slot write next) := by
  refine Outline.Holds.act stable owed (fun _ _ _ _ none => nomatch none) fun s inv here granted e s' move => ?_
  cases move
  obtain ⟨busy, ⟨tree, alloc, stays⟩, answer⟩ := changes s inv here granted
  have inv' : Inv t w ops { s with store := write s.store, history := s.history ++ [.changed i (ops i)] } := {
    tree := by
      rw [mapOf_changed]
      exact tree
    fresh := by
      intro p beyond
      rw [alloc] at beyond
      exact inv.fresh p beyond
    once := by
      rw [List.filterMap_append]
      refine List.Nodup.append inv.once (List.nodup_singleton i) ?_
      intro k old new
      rw [List.mem_singleton.mp new] at old
      obtain ⟨e, mem, same⟩ := List.mem_filterMap.mp old
      cases e with
      | began => cases same
      | changed k c =>
        cases same
        exact busy.unchanged c mem
    own := by
      intro k c mem
      rcases List.mem_append.mp mem with old | new
      · obtain ⟨same, after⟩ := inv.own k c old
        exact ⟨same, after.trans (List.sublist_append_left _ _)⟩
      · cases List.mem_singleton.mp new
        exact ⟨rfl, (List.singleton_sublist.mpr busy.began).append (List.Sublist.refl _)⟩ }
  refine ⟨inv', fun j other => ⟨.write other fun p free => stays p fun mem => ?_,
    le_of_eq alloc.symm, [.changed i (ops i)], rfl, ?_⟩, rest _ inv' ⟨?_, busy.holding⟩⟩
  · exact free ((busy.holding p).mpr mem)
  · intro e mem
    rw [List.mem_singleton.mp mem]
    exact other.symm
  · exact ⟨s.history, [.changed i (ops i)], rfl, busy.began, answer, Or.inr ⟨[], rfl⟩⟩

end Change
end BTree.Threads
