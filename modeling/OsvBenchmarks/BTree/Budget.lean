import OsvBenchmarks.BTree.Compare

/-!
Whether a leaf can pay for its split. The left half takes the separator as its
upper fence, for the second time where that is a whole key; it gives away the
old upper fence and the entries behind the slot, and a longer common prefix
shortens what stays. The slot is chosen by the number of entries, not by bytes:
a separator that is cut, or no longer than the next entry, is paid for by that
entry alone.
-/
namespace BTree
open Runs

namespace BTreeNode
variable {n : BTreeNode} {splitOrdered : Bool} {slot : ℕ}

def shared (n : BTreeNode) (slot : ℕ) : ℕ := Prefix.common (n.fullKey slot) (n.fullKey 0)

/-- The slot behind which a leaf is split: the last but one; the middle one; in a leaf of more
than 16 entries the first of the sixteenth below the middle, or the first one there whose key
begins otherwise, where the keys at both ends do. -/
inductive SplitsAt (n : BTreeNode) (splitOrdered : Bool) (slot : ℕ) : Prop where
  | last (ordered : splitOrdered = true) (eq : slot = n.count - 2)
  | middle (ordered : splitOrdered = false) (few : n.count ≤ 16) (eq : slot = (n.count - 1) / 2)
  | alike (ordered : splitOrdered = false) (many : 16 < n.count)
    (ends : n.shared (n.count / 2 - 1) = n.shared (n.count / 2 - n.count / 16))
    (eq : slot = n.count / 2 - n.count / 16)
  | turn (ordered : splitOrdered = false) (many : 16 < n.count)
    (ends : n.shared (n.count / 2 - 1) ≠ n.shared (n.count / 2 - n.count / 16))
    (above : n.count / 2 - n.count / 16 < slot)
    (here : n.shared slot ≠ n.shared (n.count / 2 - n.count / 16))
    (before : ∀ i, n.count / 2 - n.count / 16 < i → i < slot →
      n.shared i = n.shared (n.count / 2 - n.count / 16))

/-- The separator is no longer than what the left half gives away or saves. -/
def Pays (n : BTreeNode) (splitOrdered : Bool) : Prop :=
  ∀ slot, SplitsAt n splitOrdered slot →
    (Prefix.parting (n.fullKey slot) (n.fullKey (slot + 1))).length ≤
      n.getUpperFence.length + need n.prefixLen (n.entries.drop (slot + 1)) +
        n.freeSpaceAfterCompaction +
        (Prefix.common n.getLowerFence (Prefix.parting (n.fullKey slot) (n.fullKey (slot + 1))) -
          n.prefixLen) * (slot + 1)

/-- The key at the slot takes no more bytes than the entry behind it with its slot, or the separator
is cut there, behind the first byte in which the two keys differ. -/
def Light (n : BTreeNode) (splitOrdered : Bool) : Prop :=
  ∀ slot, SplitsAt n splitOrdered slot →
    (n.fullKey slot).length ≤ slotSize + (n.fullKey (slot + 1)).length + (n.getPayload (slot + 1)).length ∨
      Prefix.common (n.fullKey slot) (n.fullKey (slot + 1)) + 1 < (n.fullKey (slot + 1)).length

section Slot

theorem shared_eq (i j : ℕ) : n.shared i = n.shared j ↔ n.commonPrefix i 0 = n.commonPrefix j 0 := by
  unfold shared commonPrefix fullKey
  rw [Prefix.common_append, Prefix.common_append]
  omega

/-- The search for another prefix ends at the first one, since the one at the end differs. -/
theorem first_other (f : ℕ → ℕ) {lower upper : ℕ} (ends : f lower ≠ f (upper - 1))
    (less : lower ≤ upper - 1) :
    let slot := lower + 1 + (List.range' (lower + 1) (upper - (lower + 1))).findIdx
      fun slot => f slot ≠ f lower
    f slot ≠ f lower ∧ ∀ i, lower < i → i < slot → f i = f lower := by
  have apart : lower ≠ upper - 1 := fun same => ends (congrArg f same)
  have found : (List.range' (lower + 1) (upper - (lower + 1))).findIdx
      (fun slot => decide (f slot ≠ f lower)) <
      (List.range' (lower + 1) (upper - (lower + 1))).length := by
    refine List.findIdx_lt_length_of_exists ⟨upper - 1, ?_, ?_⟩
    · rw [List.mem_range'_1]
      omega
    · simpa using Ne.symm ends
  have here := @List.findIdx_getElem _ (fun slot => decide (f slot ≠ f lower)) _ found
  simp only [List.getElem_range', Nat.one_mul, decide_eq_true_eq] at here
  refine ⟨here, fun i above below => ?_⟩
  have not := @List.not_of_lt_findIdx _ (fun slot => decide (f slot ≠ f lower))
    (List.range' (lower + 1) (upper - (lower + 1))) (i - (lower + 1)) (by omega)
  have same : lower + 1 + (i - (lower + 1)) = i := by omega
  simp only [List.getElem_range', Nat.one_mul, same] at not
  simpa using not

theorem bestSlot_splitsAt : SplitsAt n splitOrdered (n.bestSlot splitOrdered) := by
  unfold bestSlot
  by_cases ordered : splitOrdered = true
  · rw [if_pos ordered]
    exact .last ordered rfl
  · rw [if_neg ordered]
    have ordered := Bool.eq_false_of_not_eq_true ordered
    by_cases many : n.count > 16
    · rw [if_pos many]
      dsimp only
      by_cases ends : n.commonPrefix (n.count / 2 - n.count / 16) 0 ≠ n.commonPrefix (n.count / 2 - 1) 0
      · rw [if_pos ends]
        obtain ⟨here, before⟩ := first_other (fun slot => n.commonPrefix slot 0) ends (by omega)
        refine .turn ordered many ?_ (by omega) ?_ ?_
        · exact fun same => ends ((shared_eq _ _).mp same).symm
        · exact fun same => here ((shared_eq _ _).mp same)
        · exact fun i above below => (shared_eq _ _).mpr (before i above below)
      · rw [if_neg ends]
        exact .alike ordered many ((shared_eq _ _).mpr (not_not.mp ends).symm) rfl
    · rw [if_neg many]
      exact .middle ordered (by omega) rfl

theorem SplitsAt.unique {other : ℕ} (first : SplitsAt n splitOrdered slot)
    (second : SplitsAt n splitOrdered other) : slot = other := by
  cases first with
  | last ordered eq =>
    cases second with
    | last _ eq' => omega
    | middle no | alike no | turn no => exact absurd (ordered.symm.trans no) (by decide)
  | middle ordered few eq =>
    cases second with
    | middle _ _ eq' => omega
    | last no => exact absurd (ordered.symm.trans no) (by decide)
    | alike _ many | turn _ many => omega
  | alike ordered many ends eq =>
    cases second with
    | alike _ _ _ eq' => omega
    | last no => exact absurd (ordered.symm.trans no) (by decide)
    | middle _ few => omega
    | turn _ _ no => exact absurd ends no
  | turn ordered many ends above here before =>
    cases second with
    | turn _ _ _ above' here' before' =>
      rcases Nat.lt_trichotomy slot other with less | same | more
      · exact absurd (before' slot above less) here
      · exact same
      · exact absurd (before other above' more) here'
    | last no => exact absurd (ordered.symm.trans no) (by decide)
    | middle _ few => omega
    | alike _ _ no => exact absurd no ends

theorem pays_iff (slot_eq : n.bestSlot splitOrdered = slot) : n.Pays splitOrdered ↔
    (Prefix.parting (n.fullKey slot) (n.fullKey (slot + 1))).length ≤
      n.getUpperFence.length + need n.prefixLen (n.entries.drop (slot + 1)) +
        n.freeSpaceAfterCompaction +
        (Prefix.common n.getLowerFence (Prefix.parting (n.fullKey slot) (n.fullKey (slot + 1))) -
          n.prefixLen) * (slot + 1) := by
  subst slot_eq
  constructor
  · intro pays
    exact pays _ bestSlot_splitsAt
  · intro enough other at_
    rw [← bestSlot_splitsAt.unique at_]
    exact enough

theorem light_iff : n.Light splitOrdered ↔
    (n.fullKey (n.bestSlot splitOrdered)).length ≤ slotSize +
        (n.fullKey (n.bestSlot splitOrdered + 1)).length + (n.getPayload (n.bestSlot splitOrdered + 1)).length ∨
      Prefix.common (n.fullKey (n.bestSlot splitOrdered)) (n.fullKey (n.bestSlot splitOrdered + 1)) + 1 <
        (n.fullKey (n.bestSlot splitOrdered + 1)).length := by
  constructor
  · intro light
    exact light _ bestSlot_splitsAt
  · intro enough other at_
    rw [← bestSlot_splitsAt.unique at_]
    exact enough

instance (n : BTreeNode) (splitOrdered : Bool) : Decidable (n.Light splitOrdered) :=
  decidable_of_iff _ light_iff.symm

end Slot

/-- Where all keys have it, a longer prefix saves its bytes once for each. -/
theorem need_exact {p q : ℕ} (le : p ≤ q) {es : List (Key × Payload)}
    (long : ∀ e ∈ es, q ≤ e.1.length) : need p es = need q es + (q - p) * es.length := by
  induction es with
  | nil => simp
  | cons e es ih =>
    have first := long e (by simp)
    have rest := ih fun e mem => long e (by simp [mem])
    rw [need_cons, need_cons, rest, List.length_cons, Nat.mul_succ, List.length_drop,
      List.length_drop]
    omega

theorem half_turns (valid : n.Valid) {lo up : Key} {src cnt : ℕ} (inside : src + cnt ≤ n.count)
    (within : ∀ e ∈ (n.entries.drop src).take cnt, lo ≤ e.1 ∧ (up = [] ∨ e.1 ≤ up))
    (room : headerSize + (lo.length + up.length) +
      need (Prefix.common lo up) ((n.entries.drop src).take cnt) ≤ pageSize) {k : ℕ} (le : k ≤ cnt) :
    (n.copyKeyValueRange ((new n.isLeaf).setFences lo up) 0 src k).Layout := by
  have part : ((n.entries.drop src).take k).Sublist ((n.entries.drop src).take cnt) :=
    List.take_sublist_take_left le
  have less := @need_sublist (Prefix.common lo up) _ _ part
  exact (half_packed valid src k (by omega) (fun e mem => within e (part.subset mem))
    (by omega)).layout

/-- A leaf whose entries and fences are as short as insert demands. -/
structure Sound (n : BTreeNode) : Prop where
  leaf : n.isLeaf = true
  valid : n.Valid
  within : Within n
  sorted : n.entries.Pairwise fun a b => a.1 ≤ b.1
  small : ∀ e ∈ n.entries, e.1.length + e.2.length ≤ maxKVSize
  lower : n.getLowerFence.length ≤ maxKVSize
  upper : n.getUpperFence.length ≤ maxKVSize

section Fits
variable {leftPID newPID : ℕ} {parent : BTreeNode}

/-- The halves of a leaf fit, and nothing on their pages overlaps while they are filled. -/
structure SplitFits (n : BTreeNode) (splitOrdered : Bool) (leftPID newPID : ℕ)
    (parent : BTreeNode) : Prop where
  left : (n.splitNode leftPID newPID parent (n.findSeparator splitOrdered).slot
    (n.getSep (n.findSeparator splitOrdered))).1.Fits
  right : (n.splitNode leftPID newPID parent (n.findSeparator splitOrdered).slot
    (n.getSep (n.findSeparator splitOrdered))).2.1.Fits
  left_turns : ∀ k ≤ (n.findSeparator splitOrdered).slot + 1,
    (n.copyKeyValueRange ((new n.isLeaf).setFences n.getLowerFence
      (n.getSep (n.findSeparator splitOrdered))) 0 0 k).Layout
  right_turns : ∀ k ≤ n.count - ((n.findSeparator splitOrdered).slot + 1),
    (n.copyKeyValueRange ((new n.isLeaf).setFences (n.getSep (n.findSeparator splitOrdered))
      n.getUpperFence) 0 ((n.findSeparator splitOrdered).slot + 1) k).Layout

theorem page_bytes (valid : n.Valid) : headerSize + n.getLowerFence.length +
    n.getUpperFence.length + need n.prefixLen n.entries + n.freeSpaceAfterCompaction = pageSize := by
  have bytes := bytes_used n
  have free := freeSpaceAfterCompaction_eq valid.toLayout
  have small := bytes_fit valid
  have used := valid.toLayout.used
  omega

/-- The bytes on the two sides of a split, and what the separator adds to them. -/
theorem split_room (sound : Sound n) (inside : slot + 1 < n.count) {sep : Key}
    (separates : Separates n slot sep) (short : sep.length ≤ (n.fullKey slot).length) :
    (headerSize + (n.getLowerFence.length + sep.length) +
      need (Prefix.common n.getLowerFence sep) (n.entries.take (slot + 1)) ≤ pageSize ↔
        sep.length ≤ n.getUpperFence.length + need n.prefixLen (n.entries.drop (slot + 1)) +
          n.freeSpaceAfterCompaction +
          (Prefix.common n.getLowerFence sep - n.prefixLen) * (slot + 1)) ∧
    headerSize + (sep.length + n.getUpperFence.length) +
      need (Prefix.common sep n.getUpperFence) (n.entries.drop (slot + 1)) ≤ pageSize := by
  have page := page_bytes sound.valid
  have whole := need_append n.prefixLen (n.entries.take (slot + 1)) (n.entries.drop (slot + 1))
  rw [List.take_append_drop] at whole
  have pre := sound.valid.toCoded.prefixLen
  have first := fullKey_mem (n := n) (i := slot) (by omega)
  have second := fullKey_mem inside
  have above : n.getLowerFence ≤ sep := le_trans (sound.within.above _ first) separates.low
  have below : n.getUpperFence = [] ∨ sep ≤ n.getUpperFence :=
    (sound.within.below_of_mem second).imp id (le_trans separates.high)
  obtain ⟨low, _⟩ := leaf_parts sound.within (ascending_iff.mpr sound.sorted) separates inside
  constructor
  · have grows : n.prefixLen ≤ Prefix.common n.getLowerFence sep := by
      rw [pre]
      exact common_grows_left above below
    have saved := need_exact grows fun e (mem : e ∈ n.entries.take (slot + 1)) =>
      within_long (low e mem).1 (low e mem).2
    have size : (n.entries.take (slot + 1)).length = slot + 1 := by
      rw [List.length_take, entries_length]
      omega
    rw [size] at saved
    omega
  · have grows : n.prefixLen ≤ Prefix.common sep n.getUpperFence := by
      rw [pre]
      exact common_grows_right above below
    have shrinks := need_antitone grows (n.entries.drop (slot + 1))
    have prefix_le := sound.valid.toCoded.prefix_le
    have lower : n.getLowerFence.length = n.lowerFence.len := bytes_length _ _ _
    -- the key at the slot stays on the left, with all but its prefix
    have stays : [(n.fullKey slot, n.getPayload slot)].Sublist (n.entries.take (slot + 1)) := by
      rw [List.singleton_sublist, List.mem_take_iff_getElem]
      refine ⟨slot, by rw [entries_length]; omega, ?_⟩
      have here := fullKey_eq (n := n) (i := slot) (by omega)
      rw [List.getElem?_eq_getElem (by rw [entries_length]; omega)] at here
      exact Option.some.inj here
    have least := @need_sublist n.prefixLen _ _ stays
    rw [need_cons, need_nil, List.length_drop] at least
    dsimp only at least
    omega

theorem splitFits_iff (sound : Sound n) (some : 2 ≤ n.count) :
    SplitFits n splitOrdered leftPID newPID parent ↔ n.Pays splitOrdered := by
  have inside := bestSlot_inside splitOrdered some
  have sorted := ascending_iff.mpr sound.sorted
  obtain ⟨slot_eq, _, sep_eq⟩ := getSep_leaf sound.leaf splitOrdered inside
  have separates := getSep_separates sound.leaf splitOrdered some sorted
  have pays := @pays_iff n splitOrdered (n.bestSlot splitOrdered) rfl
  rw [← sep_eq] at pays
  have short : (n.getSep (n.findSeparator splitOrdered)).length ≤
      (n.fullKey (n.bestSlot splitOrdered)).length := by
    rw [sep_eq]
    exact Prefix.parting_short _ _
  obtain ⟨left_room, right_room⟩ := split_room sound inside separates short
  obtain ⟨low, high⟩ := leaf_parts sound.within sorted separates inside
  have shape : SplitFits n splitOrdered leftPID newPID parent ↔ _ :=
    ⟨fun h => And.intro h.left (And.intro h.right (And.intro h.left_turns h.right_turns)),
      fun h => ⟨h.1, h.2.1, h.2.2.1, h.2.2.2⟩⟩
  rw [shape, slot_eq, pays, ← left_room]
  generalize n.getSep (n.findSeparator splitOrdered) = sep at *
  generalize n.bestSlot splitOrdered = slot at *
  have long : ∀ e ∈ n.entries.take (slot + 1), Prefix.common n.getLowerFence sep ≤ e.1.length :=
    fun e mem => within_long (low e mem).1 (low e mem).2
  obtain ⟨count, left_bytes⟩ := @half_bytes n sound.valid n.getLowerFence sep 0 (slot + 1) (by omega)
    long newPID
  have rest : (n.entries.drop (slot + 1)).take (n.count - (slot + 1)) = n.entries.drop (slot + 1) :=
    List.take_of_length_le (by rw [List.length_drop, entries_length])
  have long' : ∀ e ∈ (n.entries.drop (slot + 1)).take (n.count - (slot + 1)),
      Prefix.common sep n.getUpperFence ≤ e.1.length := by
    rw [rest]
    exact fun e mem => within_long (high e mem).1 (high e mem).2
  obtain ⟨_, right_bytes⟩ := @half_bytes n sound.valid sep n.getUpperFence (slot + 1)
    (n.count - (slot + 1)) (by omega) long' n.link
  have count : (n.copyKeyValueRange ((new n.isLeaf).setFences n.getLowerFence sep) 0 0
      (slot + 1)).count = slot + 1 := count
  have eq : n.splitNode leftPID newPID parent slot sep = _ :=
    splitNode_leaf_eq sound.leaf leftPID newPID parent
  dsimp only at eq
  rw [count] at eq
  rw [eq]
  unfold Fits
  rw [left_bytes, right_bytes, rest]
  constructor
  · intro fits
    exact fits.1
  · intro room
    exact ⟨room, right_room, fun k le => half_turns sound.valid (by omega) low room le,
      fun k le => half_turns sound.valid (by omega) (by rwa [rest]) (by rwa [rest]) le⟩

end Fits

theorem Light.pays (light : n.Light splitOrdered) (valid : n.Valid) (some : 2 ≤ n.count) :
    n.Pays splitOrdered := by
  intro slot at_
  obtain rfl : n.bestSlot splitOrdered = slot := bestSlot_splitsAt.unique at_
  have light := light _ at_
  have inside := bestSlot_inside splitOrdered some
  generalize n.bestSlot splitOrdered = slot at *
  have shared := Prefix.common_le_left (n.fullKey slot) (n.fullKey (slot + 1))
  have sep : (Prefix.parting (n.fullKey slot) (n.fullKey (slot + 1))).length ≤
      slotSize + (n.fullKey (slot + 1)).length + (n.getPayload (slot + 1)).length := by
    unfold Prefix.parting
    split
    · rw [List.length_take]
      omega
    · omega
  have upper : n.prefixLen ≤ n.getUpperFence.length := by
    rw [valid.toCoded.prefixLen]
    exact Prefix.common_le_right _ _
  have here := fullKey_eq (n := n) inside
  have bound : slot + 1 < n.entries.length := by rwa [entries_length]
  rw [List.getElem?_eq_getElem bound] at here
  have next := congrArg (need n.prefixLen) (List.drop_eq_getElem_cons bound)
  rw [Option.some.inj here, need_cons, List.length_drop] at next
  dsimp only at next
  omega

section Run

def Accepts (n : BTreeNode) (key : Key) (payload : Payload) : Prop :=
  n.Covers key ∧ key.length + payload.length ≤ maxKVSize

instance (n : BTreeNode) (key : Key) (payload : Payload) : Decidable (n.Accepts key payload) :=
  inferInstanceAs (Decidable (_ ∧ _))

/-- What becomes of a leaf; a split for which there was no space goes on with one half. `behind`
is what lies behind the key in memory. -/
inductive LeafMove where
  | insert (behind : Heap) (key : Key) (payload : Payload)
  | remove (slotId : ℕ)
  | split (splitOrdered : Bool) (key : Key) (payload : Payload) (leftPID newPID : ℕ)
    (parent : BTreeNode) (right : Bool)

def leafStep (n : BTreeNode) : LeafMove → Option BTreeNode
  | .insert behind key payload =>
    if n.Accepts key payload ∧ n.hasSpaceFor key.length payload.length = true
    then some (n.insertInPageIn behind key payload) else none
  | .remove slotId => if slotId < n.count then some (n.removeSlot slotId) else none
  | .split splitOrdered key payload leftPID newPID parent right =>
    if n.Accepts key payload ∧ n.hasSpaceFor key.length payload.length = false then
      let info := n.findSeparator splitOrdered
      let pages := n.splitNode leftPID newPID parent info.slot (n.getSep info)
      some (if right then pages.2.1 else pages.1)
    else none

/-- Every search is decided by the keys and every split is light. -/
def Steady (n : BTreeNode) : LeafMove → Prop
  | .insert _ key _ => n.Decided key
  | .remove _ => True
  | .split splitOrdered _ _ _ _ _ _ => n.Light splitOrdered

instance (n : BTreeNode) (m : LeafMove) : Decidable (Steady n m) :=
  match m with
  | .insert _ key _ => inferInstanceAs (Decidable (n.Decided key))
  | .remove _ => .isTrue trivial
  | .split splitOrdered _ _ _ _ _ _ => inferInstanceAs (Decidable (n.Light splitOrdered))

theorem new_sound : Sound (new true) where
  leaf := rfl
  valid := new_valid true
  within := ⟨fun _ none => absurd none List.not_mem_nil, Or.inl rfl⟩
  sorted := List.Pairwise.nil
  small := fun _ none => absurd none List.not_mem_nil
  lower := by decide
  upper := by decide

theorem Sound.inserted (sound : Sound n) {key : Key} {payload : Payload}
    (accepts : n.Accepts key payload)
    (space : n.hasSpaceFor key.length payload.length = true) : Sound (n.insertInPage key payload) := by
  obtain ⟨covers, small⟩ := accepts
  have admits : n.Admits key payload := by
    refine ⟨covers, ?_, space⟩
    simp only [maxKVSize, pageSize, headerSize, slotSize] at small ⊢
    omega
  obtain ⟨valid, sorted⟩ := admits.keeps ⟨sound.valid, sound.sorted⟩
  obtain ⟨i, step⟩ := admits.inserted sound.valid sound.sorted
  exact {
    leaf := step.isLeaf.trans sound.leaf
    valid := valid
    within := {
      above := by
        intro e mem
        rw [step.lower]
        rcases step.mem mem with old | rfl
        · exact sound.within.above e old
        · exact covers.1
      below := by
        rw [step.upper]
        by_cases none : n.getUpperFence = []
        · exact Or.inl none
        · refine Or.inr fun e mem => ?_
          rcases step.mem mem with old | rfl
          · exact (sound.within.below_of_mem old).resolve_left none
          · exact covers.2.resolve_left none }
    sorted := sorted
    small := by
      intro e mem
      rcases step.mem mem with old | rfl
      · exact sound.small e old
      · exact small
    lower := by rw [step.lower]; exact sound.lower
    upper := by rw [step.upper]; exact sound.upper }

theorem Sound.part (sound : Sound n) {r : BTreeNode} {es : List (Key × Payload)} {lo up : Key}
    (valid : r.Valid) (leaf : r.isLeaf = true) (lower : r.getLowerFence = lo)
    (upper : r.getUpperFence = up) (entries : r.entries = es) (sub : es.Sublist n.entries)
    (within : ∀ e ∈ es, lo ≤ e.1 ∧ (up = [] ∨ e.1 ≤ up))
    (short : lo.length ≤ maxKVSize ∧ up.length ≤ maxKVSize) : Sound r where
  leaf := leaf
  valid := valid
  within := {
    above := by
      rw [entries, lower]
      exact fun e mem => (within e mem).1
    below := by
      rw [entries, upper]
      by_cases none : up = []
      · exact Or.inl none
      · exact Or.inr fun e mem => (within e mem).2.resolve_left none }
  sorted := by
    rw [entries]
    exact sound.sorted.sublist sub
  small := by
    rw [entries]
    exact fun e mem => sound.small e (sub.subset mem)
  lower := by rw [lower]; exact short.1
  upper := by rw [upper]; exact short.2

theorem Sound.removed (sound : Sound n) {slotId : ℕ} (inside : slotId < n.count) :
    Sound (n.removeSlot slotId) := by
  have step := removeSlot_removed sound.valid inside
  refine sound.part step.valid (step.isLeaf.trans sound.leaf) step.lower step.upper step.entries
    (List.eraseIdx_sublist _ _) (fun e mem => ?_) ⟨sound.lower, sound.upper⟩
  have old := (List.eraseIdx_sublist n.entries slotId).subset mem
  exact ⟨sound.within.above e old, sound.within.below_of_mem old⟩

theorem Sound.halves (sound : Sound n) (some : 2 ≤ n.count) (pays : n.Pays splitOrdered)
    (leftPID newPID : ℕ) (parent : BTreeNode) :
    let info := n.findSeparator splitOrdered
    let pages := n.splitNode leftPID newPID parent info.slot (n.getSep info)
    Sound pages.1 ∧ Sound pages.2.1 := by
  have inside := bestSlot_inside splitOrdered some
  have sorted := ascending_iff.mpr sound.sorted
  obtain ⟨slot_eq, _, sep_eq⟩ := getSep_leaf sound.leaf splitOrdered inside
  have separates := getSep_separates sound.leaf splitOrdered some sorted
  have pays := (@pays_iff n splitOrdered (n.bestSlot splitOrdered) rfl).mp pays
  have short := Prefix.parting_short (n.fullKey (n.bestSlot splitOrdered))
    (n.fullKey (n.bestSlot splitOrdered + 1))
  rw [← sep_eq] at pays short
  intro info pages
  have pages_eq : pages = n.splitNode leftPID newPID parent info.slot (n.getSep info) := rfl
  have slot_eq : info.slot = n.bestSlot splitOrdered := slot_eq
  rw [slot_eq] at pages_eq
  change (n.getSep info).length ≤ _ at short
  generalize n.getSep info = sep at *
  generalize n.bestSlot splitOrdered = slot at *
  obtain ⟨left_room, right_room⟩ := split_room sound inside separates short
  have left_room := left_room.mpr pays
  obtain ⟨low, high⟩ := leaf_parts sound.within sorted separates inside
  have size := sound.small _ (fullKey_mem (n := n) (i := slot) (by omega))
  have short : sep.length ≤ maxKVSize := by
    dsimp only at size
    omega
  have rest : (n.entries.drop (slot + 1)).take (n.count - (slot + 1)) = n.entries.drop (slot + 1) :=
    List.take_of_length_le (by rw [List.length_drop, entries_length])
  have l := @half_packed n sound.valid n.getLowerFence sep 0 (slot + 1) (by omega) low left_room
  have r := @half_packed n sound.valid sep n.getUpperFence (slot + 1) (n.count - (slot + 1))
    (by omega) (by rwa [rest]) (by rwa [rest])
  rw [rest] at r
  rw [List.drop_zero] at l
  have count := l.count
  rw [List.length_take, entries_length, Nat.min_eq_left (by omega)] at count
  have eq : n.splitNode leftPID newPID parent slot sep = _ :=
    splitNode_leaf_eq sound.leaf leftPID newPID parent
  dsimp only at eq
  rw [count] at eq
  rw [pages_eq, eq]
  have left := (l.withLink newPID).hinted
  have right := (r.withLink n.link).hinted
  exact ⟨sound.part (l.withLink newPID).valid (left.isLeaf.trans sound.leaf) left.lower left.upper
      left.entries (List.take_sublist _ _) low ⟨sound.lower, short⟩,
    sound.part (r.withLink n.link).valid (right.isLeaf.trans sound.leaf) right.lower right.upper
      right.entries (List.drop_sublist _ _) high ⟨short, sound.upper⟩⟩

theorem Sound.two (sound : Sound n) {key : Key} {payload : Payload}
    (accepts : n.Accepts key payload)
    (full : n.hasSpaceFor key.length payload.length = false) : 2 ≤ n.count := by
  obtain ⟨covers, small⟩ := accepts
  have long : n.prefixLen ≤ key.length := by
    rw [sound.valid.toCoded.prefixLen]
    exact within_long covers.1 covers.2
  have size : maxKVSize = 993 := by decide
  have more := full_bytes sound.valid long (by omega) small full
  have most := need_le n.prefixLen maxKVSize n.entries sound.small
  have lower := sound.lower
  have upper := sound.upper
  rw [entries_length] at most
  by_contra few
  have : (slotSize + maxKVSize) * n.count ≤ (slotSize + maxKVSize) * 1 :=
    Nat.mul_le_mul_left _ (by omega)
  simp only [slotSize, pageSize, headerSize] at *
  omega

theorem leafStep_sound {m : LeafMove} {r : BTreeNode} (sound : Sound n) (steady : Steady n m)
    (step : leafStep n m = some r) : Sound r := by
  cases m with
  | insert behind key payload =>
    simp only [leafStep, Option.ite_none_right_eq_some, Option.some.injEq] at step
    obtain ⟨⟨accepts, space⟩, rfl⟩ := step
    rw [insertInPageIn_eq sound.valid steady]
    exact sound.inserted accepts space
  | remove slotId =>
    simp only [leafStep, Option.ite_none_right_eq_some, Option.some.injEq] at step
    obtain ⟨inside, rfl⟩ := step
    exact sound.removed inside
  | split splitOrdered key payload leftPID newPID parent right =>
    simp only [leafStep, Option.ite_none_right_eq_some, Option.some.injEq] at step
    obtain ⟨⟨accepts, full⟩, rfl⟩ := step
    have some := sound.two accepts full
    obtain ⟨left, other⟩ := sound.halves some (Light.pays steady sound.valid some) leftPID newPID parent
    cases right with
    | true => exact other
    | false => exact left

/-- In a leaf that any insertions with decided searches, removals and light splits have led to, a
light split fits its pages, and any other exactly when it is paid for. -/
theorem light_split_fits {ops : List LeafMove} (run : exec leafStep (new true) ops = some n)
    (steady : Allowed leafStep Steady (new true) ops) {key : Key} {payload : Payload}
    (accepts : n.Accepts key payload)
    (full : n.hasSpaceFor key.length payload.length = false) (splitOrdered : Bool)
    (leftPID newPID : ℕ) (parent : BTreeNode) :
    (n.Light splitOrdered → SplitFits n splitOrdered leftPID newPID parent) ∧
      (SplitFits n splitOrdered leftPID newPID parent ↔ n.Pays splitOrdered) := by
  have sound := exec_invariant Steady Sound (fun _ _ _ => leafStep_sound) new_sound steady run
  have some := sound.two accepts full
  have exactly : SplitFits n splitOrdered leftPID newPID parent ↔ n.Pays splitOrdered :=
    splitFits_iff sound some
  exact ⟨fun light => exactly.mpr (light.pays sound.valid some), exactly⟩

end Run

def zeros : Heap := fun _ => 0

def fullLength (first : u8) : Key := first :: List.replicate 992 0

/-- Three keys as long as insert allows, and two short ones behind them. -/
def crowded : List LeafMove :=
  [.insert zeros (fullLength 1) [], .insert zeros (fullLength 2) [], .insert zeros (fullLength 3) [],
    .insert zeros [240] [], .insert zeros [241] []]

/-- The separator is the third key as a whole, which the left half stores twice. -/
theorem crowded_overflows : ¬ ∀ (ops : List LeafMove) (n : BTreeNode) (key : Key) (payload : Payload),
    exec leafStep (new true) ops = some n → n.Accepts key payload →
      n.hasSpaceFor key.length payload.length = false → SplitFits n false 1 2 (new false) := by
  intro all
  obtain ⟨n, run, seen⟩ := exec_observe leafStep (new true) crowded
    (fun n => (decide (n.Accepts (fullLength 4) []), n.hasSpaceFor 993 0,
      decide ((n.splitNode 1 2 (new false) (n.findSeparator false).slot
        (n.getSep (n.findSeparator false))).1.Fits))) (true, false, false) (by decide +kernel)
  simp only [Prod.mk.injEq, decide_eq_true_eq, decide_eq_false_iff_not] at seen
  obtain ⟨accepts, full, exceeds⟩ := seen
  refine exceeds (all crowded n _ [] run accepts ?_).left
  rw [fullLength, List.length_cons, List.length_replicate]
  exact full

def refilled : List LeafMove := crowded.take 3 ++
  [.split false (fullLength 4) [] 1 2 (new false) true, .insert zeros (fullLength 4) [],
    .insert zeros (fullLength 5) []]

theorem light_split_fits_refilled : ∃ n, exec leafStep (new true) refilled = some n ∧
    SplitFits n false 2 3 (new false) := by
  obtain ⟨n, run, seen⟩ := exec_observe leafStep (new true) refilled
    (fun n => (decide (n.Accepts (fullLength 6) []), n.hasSpaceFor 993 0, decide (n.Light false)))
    (true, false, true) (by decide +kernel)
  simp only [Prod.mk.injEq, decide_eq_true_eq] at seen
  obtain ⟨accepts, full, light⟩ := seen
  have steady : Allowed leafStep Steady (new true) refilled := by decide +kernel
  refine ⟨n, run, (light_split_fits run steady accepts ?_ false 2 3 (new false)).1 light⟩
  rw [fullLength, List.length_cons, List.length_replicate]
  exact full

end BTreeNode
end BTree
