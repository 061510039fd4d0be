import OsvBenchmarks.Tree.Scan

/-!
Lookups and scans of one tree: they see the same keys as long as no key is
inserted twice. A second copy may come to lie behind the separator of a split,
where lookups and removes of the key do not go.
-/
namespace BTree
open FenceTree BTreeNode Outcome

/-- A callback that notes every key and goes on. -/
def collect (keys : List Key) (e : Key × Payload) : List Key × Bool := (keys ++ [e.1], true)

theorem deliver_collect (keys : List Key) (es : List (Key × Payload)) :
    deliver collect keys es = (keys ++ es.map Prod.fst, true) := by
  induction es generalizing keys with
  | nil => rw [List.map_nil, List.append_nil]; rfl
  | cons e es ih =>
    rw [deliver, collect, if_pos rfl, ih, List.append_assoc]
    rfl

/-- lookup reports a key present exactly if a scan of the whole tree delivers it. -/
def Agrees (t : Tree) (s : Store) : Prop :=
  ∀ key, (∃ v, Settles (fun fuel => t.lookup fuel s key) (done (some v))) ↔
    ∃ keys, Settles (fun fuel => t.adapterScan fuel s [] collect []) (done keys) ∧ key ∈ keys

/-- Four copies of a key fill two leaves; three removes empty the first. -/
def copies : List Call :=
  let payload := List.replicate 992 0
  [.insert [7] payload, .insert [7] payload, .insert [7] payload, .insert [7] payload,
    .remove [7], .remove [7], .remove [7]]

/-- Of the calls' answers and the store: three keys removed, and the key gone for lookup but not for a scan. -/
def strays (r : List Answer × Store) : Bool :=
  ((⟨0, false⟩ : Tree).lookup 9 r.2 [7]).passes Option.isNone &&
    ((⟨0, false⟩ : Tree).adapterScan 9 r.2 [] collect []).passes fun keys => keys == [[7]]

theorem copies_disagree : (∀ key payload, Call.insert key payload ∈ copies → Acceptable 992 key payload) ∧
    ∃ answers s, Ran ⟨0, false⟩ copies answers s ∧
      Settles (fun fuel => (⟨0, false⟩ : Tree).lookup fuel s [7]) (done none) ∧
      Settles (fun fuel => (⟨0, false⟩ : Tree).adapterScan fuel s [] collect []) (done [[7]]) ∧
      ¬ Agrees ⟨0, false⟩ s := by
  constructor
  · intro key payload mem
    simp only [copies, List.mem_cons, Call.insert.injEq, reduceCtorEq, List.not_mem_nil, or_false, or_self] at mem
    obtain ⟨rfl, rfl⟩ := mem
    exact ⟨by decide, by decide, by decide, List.length_replicate⟩
  · obtain ⟨answers, s, ran, stray⟩ := ran_of_check copies 9 strays (by decide +kernel)
    rw [strays, Bool.and_eq_true] at stray
    obtain ⟨found, ends, none⟩ := passes_done stray.1
    obtain ⟨keys, ends', same⟩ := passes_done stray.2
    cases Option.isNone_iff_eq_none.mp none
    cases beq_iff_eq.mp same
    have lookup := settles_of_extends (fun fuel => Tree.lookup_extends _ fuel s [7]) ends
    have scan := settles_of_extends (fun fuel => Tree.adapterScan_extends _ fuel s [] [] collect) ends'
    refine ⟨answers, s, ran, lookup, scan, fun agrees => ?_⟩
    obtain ⟨v, there⟩ := (agrees [7]).mpr ⟨_, scan, by simp⟩
    cases there.unique lookup

/-- Where every insert gets a key that is absent at that moment, lookups and scans agree. -/
theorem lookup_agrees {t : Tree} {w : ℕ} {calls : List Call} {s : Store} (made : Made t w calls s) :
    Agrees t s := by
  obtain ⟨es, _, mem, scans⟩ := made.represents.scans
  have lookup := fun key => made.represents.lookup key
  generalize calls.foldl Map.after ∅ = m at *
  have scan := (scans [] (List Key) collect []).1
  rw [deliver_collect, List.nil_append] at scan
  have found : ∀ key, (∃ v, (key, v) ∈ es) ↔ key ∈ (es.filter fun e => decide ([] ≤ e.1)).map Prod.fst := by
    intro key
    rw [List.filter_eq_self.mpr fun e _ => by simpa using Prefix.nil_le e.1]
    simp
  intro key
  constructor
  · rintro ⟨v, settles⟩
    have same := Outcome.done.inj ((lookup key).unique settles)
    exact ⟨_, scan, (found key).mp ⟨v, (mem key v).mpr same⟩⟩
  · rintro ⟨keys, settles, there⟩
    cases settles.unique scan
    obtain ⟨v, here⟩ := (found key).mpr there
    refine ⟨v, ?_⟩
    rw [← (mem key v).mp here]
    exact lookup key

theorem lookup_agrees_split : ∃ s, Made ⟨0, false⟩ 900 splitLeaf s ∧ Agrees ⟨0, false⟩ s := by
  obtain ⟨s, made⟩ := splitLeaf_made
  exact ⟨s, made, lookup_agrees made⟩

end BTree
