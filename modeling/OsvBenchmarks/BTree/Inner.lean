import OsvBenchmarks.BTree.Split

/-!
Inner pages: their children, the child that a search leads to, the parent of a
split, which takes the separator in front of the right half, and the split of
an inner page itself, where the separator moves up.
-/
namespace BTree

theorem place_unique {es : List (Key × Payload)} {k : Key} {i j : ℕ} (first : Place es k i)
    (second : Place es k j) (absent : ∀ e ∈ es, e.1 ≠ k) : i = j := by
  have apart : ∀ {a b : ℕ}, Place es k a → Place es k b → ¬ a < b := by
    intro a b pa pb less
    have inside : a < es.length := by
      have := pb.le
      omega
    have low := pb.low es[a] (List.mem_take_iff_getElem.mpr ⟨a, by omega, rfl⟩)
    have high := pa.high es[a] (List.mem_drop_iff_getElem.mpr ⟨0, by omega, rfl⟩)
    exact absent _ (List.getElem_mem inside) (le_antisymm low high)
  have := apart first second
  have := apart second first
  omega

namespace BTreeNode
variable {n : BTreeNode}

def children (n : BTreeNode) : List (Key × ℕ) := n.entries.map fun e => (e.1, loadPID e.2)

@[simp] theorem children_length : n.children.length = n.count := by
  simp [children]

/-- All payloads have one length. -/
def Wide (n : BTreeNode) (width : ℕ) : Prop := ∀ e ∈ n.entries, e.2.length = width

theorem getChild_eq (wide : n.Wide pidSize) {i : ℕ} (h : i < n.count) :
    n.getChild i = loadPID (n.getPayload i) := by
  have width := wide _ (fullKey_mem h)
  have len : (n.getPayload i).length = (n.slotAt i).payloadLen := bytes_length _ _ _
  rw [getChild, getPayload, payloadOf, ← len, width]

theorem children_getElem? (wide : n.Wide pidSize) {i : ℕ} (h : i < n.count) :
    n.children[i]? = some (n.fullKey i, n.getChild i) := by
  rw [children, List.getElem?_map, fullKey_eq h, getChild_eq wide h]
  rfl

theorem lookupInner_eq (wide : n.Wide pidSize) (key : Key)
    (le : (n.lowerBound key).1 ≤ n.count) : n.lookupInner key =
      ((n.children.drop (n.lowerBound key).1).head?.map Prod.snd).getD n.link := by
  unfold lookupInner
  generalize (n.lowerBound key).1 = pos at *
  rw [List.head?_drop]
  by_cases last : pos = n.count
  · have none : n.children[pos]? = none := List.getElem?_eq_none (by rw [children_length]; omega)
    rw [none, if_pos last]
    rfl
  · simp only [children_getElem? wide (show pos < n.count by omega), if_neg last]
    rfl

/-- With distinct keys, what lies before the place of a key is below it. -/
theorem lowerBound_low (valid : n.Valid) (sorted : n.entries.Pairwise fun a b => a.1 < b.1) (key : Key) :
    ∀ e ∈ n.entries.take (n.lowerBound key).1, e.1 < key := by
  have weak := sorted.imp fun h => le_of_lt h
  intro e mem
  refine lt_of_le_of_ne ((lowerBound_place valid weak key).low e mem) fun same => ?_
  -- an equal key would have been found, and at the first such slot
  have found := (lowerBound_found valid weak key).mpr
    ⟨e.2, by rw [← same]; exact List.mem_of_mem_take mem⟩
  obtain ⟨inside, there⟩ := lowerBound_slot valid weak found
  obtain ⟨j, less, rfl⟩ := List.mem_take_iff_getElem.mp mem
  rw [List.getElem?_eq_getElem (by rwa [entries_length])] at there
  have order := List.pairwise_iff_getElem.mp sorted j (n.lowerBound key).1 (by omega)
    (by rwa [entries_length]) (by omega)
  rw [Option.some.inj there] at order
  exact absurd same (ne_of_lt order)

theorem lowerBound_children (valid : n.Valid) (sorted : n.entries.Pairwise fun a b => a.1 < b.1)
    (key : Key) : (n.lowerBound key).1 ≤ n.count ∧
      (∀ e ∈ n.children.take (n.lowerBound key).1, e.1 < key) ∧
      ∀ e ∈ n.children.drop (n.lowerBound key).1, key ≤ e.1 := by
  have place := lowerBound_place valid (sorted.imp fun h => le_of_lt h) key
  have le := place.le
  rw [entries_length] at le
  refine ⟨le, ?_, ?_⟩
  · intro e mem
    rw [children, ← List.map_take] at mem
    obtain ⟨e', here, rfl⟩ := List.mem_map.mp mem
    exact lowerBound_low valid sorted key e' here
  · intro e mem
    rw [children, ← List.map_drop] at mem
    obtain ⟨e', here, rfl⟩ := List.mem_map.mp mem
    exact place.high e' here

section Adopt
variable {sep : Key} {leftPID newPID : ℕ}

/-- The parent of a split, whose separator lands at place `i`. -/
structure Adopted (n r : BTreeNode) (sep : Key) (leftPID newPID i : ℕ) : Prop where
  valid : r.Valid
  wide : r.Wide pidSize
  isLeaf : r.isLeaf = n.isLeaf
  lower : r.getLowerFence = n.getLowerFence
  upper : r.getUpperFence = n.getUpperFence
  le : i ≤ n.count
  low : ∀ e ∈ n.children.take i, e.1 < sep
  high : ∀ e ∈ n.children.drop i, sep < e.1
  last : i = n.count → r.children = n.children ++ [(sep, leftPID)] ∧ r.link = newPID
  inside : ∀ u c, n.children[i]? = some (u, c) →
    r.children = n.children.take i ++ (sep, leftPID) :: (u, newPID) :: n.children.drop (i + 1) ∧
      r.link = n.link

theorem Wide.inserted {w : ℕ} {r : BTreeNode} {payload : Payload} {i : ℕ} (wide : n.Wide w)
    (step : Inserted n r sep payload i) (width : payload.length = w) : r.Wide w := by
  intro e mem
  rcases step.mem mem with old | rfl
  · exact wide e old
  · exact width

theorem Wide.overwritten {w : ℕ} {r : BTreeNode} {payload : Payload} {i : ℕ} (wide : n.Wide w)
    (step : Overwritten n r i payload) (width : payload.length = w) : r.Wide w := by
  intro e mem
  rw [step.entries] at mem
  rcases List.mem_or_eq_of_mem_set mem with old | rfl
  · exact wide e old
  · exact width

/-- The parent after the old child pointer has become the right half's. -/
structure Repointed (n m : BTreeNode) (i newPID : ℕ) : Prop where
  valid : m.Valid
  wide : m.Wide pidSize
  isLeaf : m.isLeaf = n.isLeaf
  lower : m.getLowerFence = n.getLowerFence
  upper : m.getUpperFence = n.getUpperFence
  prefixLen : m.prefixLen = n.prefixLen
  count : m.count = n.count
  used : m.used = n.used
  keys : m.entries.map Prod.fst = n.entries.map Prod.fst
  last : i = n.count → m.entries = n.entries ∧ m.link = newPID
  inside : i < n.count → m.entries = n.entries.set i (n.fullKey i, pidBytes newPID) ∧ m.link = n.link

theorem setPayload_repointed (valid : n.Valid) (wide : n.Wide pidSize) {i : ℕ}
    (less : i < n.count) : Repointed n (n.setPayload i (pidBytes newPID)) i newPID := by
  have width : (pidBytes newPID).length = (n.slotAt i).payloadLen := by
    have := wide _ (fullKey_mem less)
    have len : (n.getPayload i).length = (n.slotAt i).payloadLen := bytes_length _ _ _
    rw [pidBytes_length, ← len, this]
  have step := setPayload_overwritten valid less width
  have keys : (n.setPayload i (pidBytes newPID)).entries.map Prod.fst = n.entries.map Prod.fst := by
    rw [step.entries, List.map_set]
    exact keys_set less
  exact {
    valid := step.valid
    wide := wide.overwritten step (pidBytes_length _)
    isLeaf := rfl
    lower := step.lower
    upper := step.upper
    prefixLen := rfl
    count := rfl
    used := step.used
    keys := keys
    last := fun same => absurd less (by omega)
    inside := fun _ => ⟨step.entries, rfl⟩ }

theorem link_repointed (valid : n.Valid) (wide : n.Wide pidSize) :
    Repointed n { n with link := newPID } n.count newPID where
  valid := {
    toLayout := ⟨valid.used, valid.fits, valid.room, valid.inside, valid.apart⟩
    toCoded := ⟨valid.prefixLen, valid.heads⟩
    hint := valid.hint }
  wide := wide
  isLeaf := rfl
  lower := rfl
  upper := rfl
  prefixLen := rfl
  count := rfl
  used := rfl
  keys := rfl
  last := fun _ => ⟨rfl, rfl⟩
  inside := fun less => absurd less (lt_irrefl _)

theorem Repointed.space {m : BTreeNode} {i : ℕ} (step : Repointed n m i newPID) (valid : n.Valid)
    (long : n.prefixLen ≤ sep.length) (small : sep.length < 2 ^ 32)
    (space : n.hasSpaceFor sep.length pidSize = true) :
    m.hasSpaceFor sep.length pidSize = true := by
  rw [hasSpaceFor_iff valid.toLayout pidSize long small] at space
  rw [hasSpaceFor_iff step.valid.toLayout pidSize (by rw [step.prefixLen]; exact long) small,
    step.prefixLen, step.used, slotEnd, step.count]
  exact space

theorem place_keys {es fs : List (Key × Payload)} (keys : es.map Prod.fst = fs.map Prod.fst)
    {k : Key} {i : ℕ} (place : Place es k i) : Place fs k i := by
  have len := congrArg List.length keys
  rw [List.length_map, List.length_map] at len
  have key : ∀ j (h : j < fs.length), (fs[j]).1 = (es.get ⟨j, by omega⟩).1 := by
    intro j h
    have := congrArg (·[j]?) keys
    simp only [List.getElem?_map, List.getElem?_eq_getElem h,
      List.getElem?_eq_getElem (show j < es.length by omega), Option.map_some,
      Option.some.injEq] at this
    exact this.symm
  refine ⟨by rw [← len]; exact place.le, ?_, ?_⟩
  · intro e mem
    obtain ⟨j, hj, rfl⟩ := List.mem_take_iff_getElem.mp mem
    rw [key j (by omega)]
    exact place.low _ (List.mem_take_iff_getElem.mpr ⟨j, by omega, rfl⟩)
  · intro e mem
    obtain ⟨j, hj, rfl⟩ := List.mem_drop_iff_getElem.mp mem
    rw [key (i + j) (by omega)]
    exact place.high _ (List.mem_drop_iff_getElem.mpr ⟨j, by omega, rfl⟩)

theorem adopt_adopted (valid : n.Valid) (wide : n.Wide pidSize)
    (sorted : n.entries.Pairwise fun a b => a.1 < b.1) (absent : ∀ e ∈ n.entries, e.1 ≠ sep)
    (fits : sep.take n.prefixLen = n.getPrefix) (small : sep.length < 2 ^ 32)
    (space : n.hasSpaceFor sep.length pidSize = true) (left : leftPID < 2 ^ 64)
    (new : newPID < 2 ^ 64) :
    Adopted n (adopt n sep leftPID newPID) sep leftPID newPID (n.lowerBound sep).1 := by
  have long : n.prefixLen ≤ sep.length := by
    have := congrArg List.length fits
    rw [List.length_take, getPrefix_length] at this
    omega
  obtain ⟨le, low, high⟩ := lowerBound_children valid sorted sep
  have place := lowerBound_place valid (sorted.imp fun h => le_of_lt h) sep
  unfold adopt
  generalize (n.lowerBound sep).1 = i at *
  obtain ⟨m, eq, step⟩ : ∃ m, (if i = n.count then { n with link := newPID }
      else n.setPayload i (pidBytes newPID)) = m ∧ Repointed n m i newPID := by
    by_cases last : i = n.count
    · subst last
      exact ⟨_, if_pos rfl, link_repointed valid wide⟩
    · exact ⟨_, if_neg last, setPayload_repointed valid wide (by omega)⟩
  rw [eq]
  have sorted' : m.entries.Pairwise fun a b => a.1 ≤ b.1 := by
    have old : (n.entries.map Prod.fst).Pairwise (· < ·) := List.pairwise_map.mpr sorted
    rw [← step.keys, List.pairwise_map] at old
    exact old.imp fun h => le_of_lt h
  have absent' : ∀ e ∈ m.entries, e.1 ≠ sep := by
    intro e mem same
    have : e.1 ∈ n.entries.map Prod.fst := by
      rw [← step.keys]
      exact List.mem_map_of_mem mem
    obtain ⟨e', mem', same'⟩ := List.mem_map.mp this
    exact absent e' mem' (same'.trans same)
  have prefix_ : m.getPrefix = n.getPrefix := by
    rw [getPrefix_eq step.valid.toCoded, getPrefix_eq valid.toCoded, step.lower, step.prefixLen]
  obtain ⟨j, inserted⟩ := @insertInPage_inserted m step.valid sorted' sep (pidBytes leftPID)
    (by rw [step.prefixLen, prefix_, fits]) small
    (by rw [pidBytes_length]; exact step.space valid long small space)
  have same : j = i :=
    place_unique inserted.place (place_keys step.keys.symm place) absent'
  subst same
  have children : (m.insertInPage sep (pidBytes leftPID)).children =
      m.children.take j ++ (sep, leftPID) :: m.children.drop j := by
    rw [BTreeNode.children, inserted.entries, List.map_append, List.map_cons, List.map_take,
      List.map_drop, loadPID_pidBytes left]
    rfl
  refine ⟨inserted.valid, ?_, inserted.isLeaf.trans step.isLeaf, inserted.lower.trans step.lower,
    inserted.upper.trans step.upper, le, low, ?_, ?_, ?_⟩
  · exact step.wide.inserted inserted (pidBytes_length _)
  · intro e mem
    refine lt_of_le_of_ne (high e mem) fun same => ?_
    obtain ⟨e', mem', rfl⟩ := List.mem_map.mp (List.mem_of_mem_drop mem)
    exact absent e' mem' same.symm
  · intro last
    obtain ⟨entries, link⟩ := step.last last
    have old : m.children = n.children := by rw [BTreeNode.children, entries]; rfl
    rw [children, old, last, List.take_of_length_le (by simp), List.drop_of_length_le (by simp)]
    exact ⟨rfl, inserted.link.trans link⟩
  · intro u c here
    have less : j < n.count := by
      rw [← children_length]
      exact (List.getElem?_eq_some_iff.mp here).1
    obtain ⟨entries, link⟩ := step.inside less
    rw [children_getElem? wide less] at here
    cases here
    have old : m.children = n.children.set j (n.fullKey j, newPID) := by
      rw [BTreeNode.children, entries, List.map_set, loadPID_pidBytes new]
      rfl
    refine ⟨?_, inserted.link.trans link⟩
    have behind : (n.children.set j (n.fullKey j, newPID)).drop j =
        (n.fullKey j, newPID) :: n.children.drop (j + 1) := by
      rw [List.set_eq_take_append_cons_drop, if_pos (by simpa using less),
        List.drop_append_of_le_length (by simp; omega), List.drop_take]
      simp
    rw [children, old, List.take_set_of_le (Nat.le_refl j), behind]

end Adopt

section Split

theorem inner_parts (within : Within n) (sorted : n.entries.Pairwise fun a b => a.1 < b.1)
    {slot : ℕ} (inside : slot < n.count) :
    (∀ e ∈ n.entries.take slot, n.getLowerFence ≤ e.1 ∧ (n.fullKey slot = [] ∨ e.1 ≤ n.fullKey slot)) ∧
      ∀ e ∈ n.entries.drop (slot + 1),
        n.fullKey slot ≤ e.1 ∧ (n.getUpperFence = [] ∨ e.1 ≤ n.getUpperFence) := by
  have ascend := ascending_iff.mpr (sorted.imp fun h => le_of_lt h)
  constructor
  · intro e mem
    refine ⟨within.above e (List.mem_of_mem_take mem), Or.inr ?_⟩
    obtain ⟨j, less, _, rfl⟩ := take_entries mem
    exact ascend j slot (by omega) inside
  · intro e mem
    refine ⟨?_, within.below_of_mem (List.mem_of_mem_drop mem)⟩
    obtain ⟨j, more, there, rfl⟩ := drop_entries mem
    exact ascend slot j (by omega) there

theorem splitNode_inner_eq (inner : n.isLeaf = false) (leftPID newPID : ℕ) (parent : BTreeNode)
    (slot : ℕ) (sep : Key) :
    let l := n.copyKeyValueRange ((new n.isLeaf).setFences n.getLowerFence sep) 0 0 slot
    n.splitNode leftPID newPID parent slot sep =
      ({ l with link := n.getChild l.count : BTreeNode }.makeHint,
        { n.copyKeyValueRange ((new n.isLeaf).setFences sep n.getUpperFence) 0 (l.count + 1)
            (n.count - l.count - 1) with link := n.link : BTreeNode }.makeHint,
        adopt parent sep leftPID newPID) := by
  unfold splitNode
  simp only [inner, Bool.false_eq_true, if_false]
  rfl

theorem Packed.roomy {r : BTreeNode} {leaf : Bool} {lo up : Key} {es : List (Key × Payload)}
    (packed : Packed r leaf lo up es) (room : headerSize + (lo.length + up.length) +
      need (Prefix.common lo up) es + (slotSize + (maxKeyLen + pidSize)) ≤ pageSize) : Roomy r := by
  unfold Roomy
  rw [packed.lower, packed.upper, packed.prefixLen, packed.entries]
  omega

/-- splitNode on a full inner page: the entry in the middle moves up. -/
theorem splitNode_inner (valid : n.Valid) (inner : n.isLeaf = false) (bounded : Bounded n pidSize)
    (within : Within n) (sorted : n.entries.Pairwise fun a b => a.1 < b.1)
    (full : pageSize < headerSize + n.getLowerFence.length + n.getUpperFence.length +
      need n.prefixLen n.entries + (slotSize + (maxKeyLen + pidSize))) (leftPID newPID : ℕ)
    (parent : BTreeNode) :
    let slot := n.count / 2
    ∃ l r, n.splitNode leftPID newPID parent slot (n.fullKey slot) =
        (l, r, adopt parent (n.fullKey slot) leftPID newPID) ∧
      Halved n l r (n.entries.take slot) (n.entries.drop (slot + 1)) (n.fullKey slot) ∧
      slot < n.count ∧ l.link = n.getChild slot ∧ r.link = n.link ∧ Roomy l ∧ Roomy r := by
  intro slot
  have many := full_inner bounded full
  have inside : slot < n.count := by omega
  have middle := fullKey_mem inside
  obtain ⟨some, short, _⟩ := bounded.keys _ middle
  obtain ⟨low, high⟩ := inner_parts within sorted inside
  have above := within.above _ middle
  have below := within.below_of_mem middle
  have pre := valid.toCoded.prefixLen
  have lf := bounded.lower
  have uf := bounded.upper
  simp only at some short above below
  have low_sizes : (n.entries.drop slot).length = n.count - slot := by
    rw [List.length_drop, entries_length]
  have high_sizes : (n.entries.take (slot + 1)).length = slot + 1 := by
    rw [List.length_take, entries_length]
    omega
  have left : Part n (n.entries.take slot) (n.entries.drop slot) n.getLowerFence (n.fullKey slot) := {
    perm := by rw [List.take_append_drop]
    prefix_ := by rw [pre]; exact common_grows_left above below
    short := ⟨lf, short⟩
    near := by omega }
  have right : Part n (n.entries.drop (slot + 1)) (n.entries.take (slot + 1)) (n.fullKey slot)
      n.getUpperFence := {
    perm := (List.Perm.of_eq (List.take_append_drop _ _).symm).trans List.perm_append_comm
    prefix_ := by rw [pre]; exact common_grows_right above below
    short := ⟨short, uf⟩
    near := by omega }
  have room_left := left.inner_room valid bounded (by omega)
  have room_right := right.inner_room valid bounded (by omega)
  have back : (n.entries.drop (slot + 1)).take (n.count - slot - 1) = n.entries.drop (slot + 1) := by
    apply List.take_of_length_le
    rw [List.length_drop, entries_length]
    omega
  have l := @half_packed n valid n.getLowerFence (n.fullKey slot) 0 slot (by omega) low
    (by rw [List.drop_zero]; omega)
  have r := @half_packed n valid (n.fullKey slot) n.getUpperFence (slot + 1)
    (n.count - slot - 1) (by omega) (by rwa [back]) (by rw [back]; omega)
  rw [back] at r
  rw [List.drop_zero] at l
  have count := l.count
  rw [List.length_take, entries_length, Nat.min_eq_left (by omega)] at count
  have eq : n.splitNode leftPID newPID parent slot (n.fullKey slot) = _ :=
    splitNode_inner_eq inner leftPID newPID parent slot (n.fullKey slot)
  dsimp only at eq
  rw [count] at eq
  have left_packed := (l.withLink (n.getChild slot)).hinted
  have right_packed := (r.withLink n.link).hinted
  exact ⟨_, _, eq, ⟨left_packed, right_packed, (l.withLink _).valid, (r.withLink _).valid⟩, inside,
    rfl, rfl, left_packed.roomy room_left, right_packed.roomy room_right⟩

end Split
end BTreeNode
end BTree
