import OsvBenchmarks.Tree.Fuel

/-!
Any calls on a fresh tree, run one at a time, are answered as by a finite map, and
every insert among them ends. It exits where the page ids run out, and only there.
-/
namespace BTree
open FenceTree BTreeNode Outcome

/-- Calls on a fresh tree, one at a time, are answered as by a finite map, up to an insert that
runs out of page ids. -/
theorem refines_map {slotId w : ℕ} {s : Store} (pos : metadataPageId < s.allocCount)
    (space : s.allocCount < s.virtCount) (small : s.virtCount ≤ noNeighbour) {calls : List Call}
    (allows : (∅ : Map).Allows w calls) :
    ∃ t s', Tree.create slotId s = done (t, s') ∧
      ((∃ s'', Settles (fun fuel => t.calls fuel s' calls) (done ((∅ : Map).answers calls, s''))) ∨
        Settles (fun fuel => t.calls fuel s' calls) exits ∧ t.Exhausts t.call Call.entry s' calls) := by
  obtain ⟨s', eq, represents⟩ := create_represents slotId w pos space small
  refine ⟨_, s', eq, ?_⟩
  rcases represents.calls rfl allows with stops | ⟨s'', goes, _⟩
  · exact Or.inr stops
  · exact Or.inl ⟨s'', goes⟩

theorem refines_map_split : ∃ t s' s'', Tree.create 0 blankStore = done (t, s') ∧
    Settles (fun fuel => t.calls fuel s' splitLeaf) (done (splitAnswers, s'')) ∧ s''.allocCount = 4 := by
  obtain ⟨s₁, answers, s, eq, ends, checked⟩ := fresh_settles splitLeaf 12
    (fun r => decide (r.2.allocCount = 4)) (by decide +kernel)
  obtain ⟨t, s', eq', result⟩ := @refines_map 0 900 blankStore (by decide) (by decide)
    (by decide) _ splitLeaf_allowed.1
  cases eq.symm.trans eq'
  rcases result with ⟨s'', goes⟩ | ⟨stops, _⟩
  · rw [splitLeaf_allowed.2] at goes
    cases ends.unique goes
    exact ⟨_, _, _, eq, goes, of_decide_eq_true checked⟩
  · cases ends.unique stops

section
variable {t : Tree} {w : ℕ} {s : Store} {live : Finset ℕ} {level : ℕ → ℕ} {key : Key} {payload : Payload}

/-- insert of an absent key ends after finitely many turns, each of which splits a page on the
key's path or inserts the entry, and no assertion fails on the way. It exits only where the page
ids run out. -/
theorem insert_ends (wf : WellFormed t w s live level) (ordered : t.splitOrdered = false)
    (acceptable : Acceptable w key payload) (absent : Absent s live key) :
    ∃ outcome, Turns t w key payload s live level outcome ∧
      Settles (fun fuel => t.insertAsserted fuel s key payload) outcome ∧
      Settles (fun fuel => t.insert fuel s key payload) outcome ∧
      ((∃ s', outcome = done s') ∨ outcome = exits ∧ t.RunsOut key payload s) := by
  obtain ⟨outcome, turns, asserted, plain⟩ := wf.inserts ordered acceptable absent
  refine ⟨outcome, turns, asserted, plain, ?_⟩
  rcases turns.returns with stops | ends
  · exact Or.inr ⟨stops, turns.runsOut stops⟩
  · exact Or.inl ends

end

/-- The insert that splits the leaf. -/
theorem insert_ends_split : ∃ s live level, WellFormed ⟨0, false⟩ 900 s live level ∧
    (s.page (s.roots 0)).hasSpaceFor 1 900 = false ∧
    ∃ outcome, Turns ⟨0, false⟩ 900 [5] (wide 5) s live level outcome ∧
      Settles (fun fuel => (⟨0, false⟩ : Tree).insertAsserted fuel s [5] (wide 5)) outcome ∧
      Settles (fun fuel => (⟨0, false⟩ : Tree).insert fuel s [5] (wide 5)) outcome ∧
      ((∃ s', outcome = done s') ∨
        outcome = exits ∧ (⟨0, false⟩ : Tree).RunsOut [5] (wide 5) s) := by
  obtain ⟨answers, s, ran, full⟩ := ran_of_check fullLeaf 5
    (fun r => !(r.2.page (r.2.roots 0)).hasSpaceFor 1 900) (by decide +kernel)
  obtain ⟨⟨_, acceptable₁⟩, ⟨_, acceptable₂⟩, ⟨_, acceptable₃⟩, ⟨_, acceptable₄⟩, ⟨missing, acceptable⟩, _⟩ :=
    splitLeaf_allowed.1
  have made : Made ⟨0, false⟩ 900 fullLeaf s := by
    refine ⟨⟨⟨?_, acceptable₁⟩, ⟨?_, acceptable₂⟩, ⟨?_, acceptable₃⟩, ⟨?_, acceptable₄⟩, trivial⟩, answers, ran⟩ <;>
      simp [Map.after]
  obtain ⟨live, level, wf, content⟩ := made.represents
  refine ⟨s, live, level, wf, Bool.eq_false_of_not_eq_true' full, insert_ends wf rfl acceptable ?_⟩
  intro v there
  rw [content] at there
  exact absurd (there.symm.trans missing) (by simp)

end BTree
