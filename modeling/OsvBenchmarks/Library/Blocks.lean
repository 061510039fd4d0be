import Mathlib.Logic.Function.Basic
import OsvBenchmarks.Library.Runs

/-!
Threads that run blocks of atomic actions on a shared state, interleaved action by
action. A block ends with a result or goes on at a label, so loops and restarts
need no bound, and an action that has no effect where it stands waits. Blocks are
shown correct one by one, by assertions at the labels that the other threads'
actions keep; every run of the threads is then correct.
-/
namespace Blocks
open Runs
variable {T S E A L R : Type}

/-- A result, a label, or an action: a tag, the effect under a choice of the environment, and
what follows by the state that the action found. -/
inductive Block (S E A L R : Type) : Type
  | stop (result : R)
  | goto (label : L)
  | act (tag : A) (effect : E → S → Option S) (next : E → S → Block S E A L R)

structure Pool (T S E A L R : Type) where
  shared : S
  thread : T → Block S E A L R

def Block.tag : Block S E A L R → Option A
  | .stop _ => none
  | .goto _ => none
  | .act tag _ _ => some tag

def Block.result : Block S E A L R → Option R
  | .stop r => some r
  | .goto _ => none
  | .act _ _ _ => none

theorem Block.result_eq_some {b : Block S E A L R} {r : R} : b.result = some r ↔ b = .stop r := by
  cases b <;> simp [Block.result]

section Run
variable [DecidableEq T] (code : T → L → Block S E A L R)

def next (pool : Pool T S E A L R) (m : T × E) : Option (Pool T S E A L R) :=
  match pool.thread m.1 with
  | .stop _ => none
  | .goto label => some ⟨pool.shared, Function.update pool.thread m.1 (code m.1 label)⟩
  | .act _ effect next => (effect m.2 pool.shared).map fun s =>
    ⟨s, Function.update pool.thread m.1 (next m.2 pool.shared)⟩

/-- The action that the thread takes is one that `ok` allows. -/
def Meets (ok : T → A → S → Prop) (pool : Pool T S E A L R) (m : T × E) : Prop :=
  ∀ tag ∈ (pool.thread m.1).tag, ok m.1 tag pool.shared

instance Meets.decidable (ok : T → A → S → Prop) [∀ i tag s, Decidable (ok i tag s)] (pool : Pool T S E A L R)
    (m : T × E) : Decidable (Meets ok pool m) :=
  inferInstanceAs (Decidable (∀ tag ∈ (pool.thread m.1).tag, ok m.1 tag pool.shared))

end Run

/-- What is shown of the threads: an invariant of the shared state, what a thread relies on from
the others, what is assumed of an action, what is owed at it and why it waits, and what holds at the labels and
of the results. -/
structure Outline (T S A L R : Type) where
  inv : S → Prop
  rely : T → S → S → Prop
  ok : T → A → S → Prop
  owes : T → A → S → Prop
  waits : T → A → S → Prop
  label : T → L → S → Prop
  result : T → R → S → Prop

namespace Outline
variable (o : Outline T S A L R)

def Stable (i : T) (assertion : S → Prop) : Prop :=
  ∀ s s', o.inv s → o.inv s' → o.rely i s s' → assertion s → assertion s'

/-- From here on the thread keeps to the outline, whatever the other threads do in between. -/
def Safe (i : T) : Block S E A L R → S → Prop
  | .stop r, s => o.result i r s
  | .goto l, s => o.label i l s
  | .act tag effect next, s => ∀ s', o.inv s' → o.rely i s s' → o.owes i tag s' ∧
    (∀ e, effect e s' = none → o.waits i tag s') ∧ (o.ok i tag s' → ∀ e s'', effect e s' = some s'' →
      o.inv s'' ∧ (∀ j, j ≠ i → o.rely j s' s'') ∧ Safe i (next e s') s'')

/-- The block keeps to the outline wherever the assertion holds. -/
def Holds (i : T) (pre : S → Prop) (b : Block S E A L R) : Prop :=
  ∀ s, o.inv s → pre s → o.Safe i b s

structure Lawful : Prop where
  refl : ∀ i s, o.rely i s s
  trans : ∀ i s s' s'', o.rely i s s' → o.rely i s' s'' → o.rely i s s''
  label : ∀ i l, o.Stable i (o.label i l)
  result : ∀ i r, o.Stable i (o.result i r)

variable {o} {i : T}

theorem Stable.and {p q : S → Prop} (first : o.Stable i p) (second : o.Stable i q) :
    o.Stable i fun s => p s ∧ q s :=
  fun s s' inv inv' rely both => ⟨first s s' inv inv' rely both.1, second s s' inv inv' rely both.2⟩

theorem Stable.const (p : Prop) : o.Stable i fun _ => p :=
  fun _ _ _ _ _ here => here

theorem Holds.weaken {pre pre' : S → Prop} {b : Block S E A L R} (holds : o.Holds i pre b)
    (before : ∀ s, o.inv s → pre' s → pre s) : o.Holds i pre' b :=
  fun s inv here => holds s inv (before s inv here)

/-- A fact that the assertion holds under may be taken out of it. -/
theorem Holds.given {p : Prop} {pre : S → Prop} {b : Block S E A L R}
    (holds : p → o.Holds i pre b) : o.Holds i (fun s => p ∧ pre s) b :=
  fun s inv here => holds here.1 s inv here.2

theorem Holds.stop {pre : S → Prop} {r : R} (ends : ∀ s, o.inv s → pre s → o.result i r s) :
    o.Holds (E := E) i pre (.stop r) :=
  ends

theorem Holds.goto {pre : S → Prop} {l : L} (arrives : ∀ s, o.inv s → pre s → o.label i l s) :
    o.Holds (E := E) i pre (.goto l) :=
  arrives

theorem Holds.act {pre : S → Prop} {tag : A} {effect : E → S → Option S}
    {next : E → S → Block S E A L R} (stable : o.Stable i pre)
    (owed : ∀ s, o.inv s → pre s → o.owes i tag s)
    (blocked : ∀ s, o.inv s → pre s → ∀ e, effect e s = none → o.waits i tag s)
    (step : ∀ s, o.inv s → pre s → o.ok i tag s → ∀ e s', effect e s = some s' →
      o.inv s' ∧ (∀ j, j ≠ i → o.rely j s s') ∧ o.Safe i (next e s) s') :
    o.Holds i pre (.act tag effect next) := by
  intro s inv here s' inv' rely
  have there := stable s s' inv inv' rely here
  exact ⟨owed s' inv' there, blocked s' inv' there, fun ok e s'' move => step s' inv' there ok e s'' move⟩

theorem Holds.look (lawful : o.Lawful) {pre : S → Prop} {tag : A} {effect : E → S → Option S}
    {next : E → S → Block S E A L R} (stable : o.Stable i pre)
    (owed : ∀ s, o.inv s → pre s → o.owes i tag s)
    (blocked : ∀ s, o.inv s → pre s → ∀ e, effect e s = none → o.waits i tag s)
    (same : ∀ e s s', effect e s = some s' → s' = s)
    (step : ∀ s, o.inv s → pre s → ∀ e, (effect e s).isSome → o.Safe i (next e s) s) :
    o.Holds i pre (.act tag effect next) := by
  refine Holds.act stable owed blocked fun s inv here _ e s' move => ?_
  cases same e s s' move
  exact ⟨inv, fun j _ => lawful.refl j _, step _ inv here e (Option.isSome_iff_exists.mpr ⟨_, move⟩)⟩

theorem Lawful.safe (lawful : o.Lawful) (b : Block S E A L R) : o.Stable i (o.Safe i b) := by
  cases b with
  | stop r => exact lawful.result i r
  | goto l => exact lawful.label i l
  | act tag effect next =>
    intro s s' _ _ rely safe s'' inv'' more
    exact safe s'' inv'' (lawful.trans i s s' s'' rely more)

section Run
variable [DecidableEq T] {code : T → L → Block S E A L R}

def Sound (o : Outline T S A L R) (pool : Pool T S E A L R) : Prop :=
  o.inv pool.shared ∧ ∀ i, o.Safe i (pool.thread i) pool.shared

theorem Sound.step (lawful : o.Lawful) (blocks : ∀ i l, o.Holds i (o.label i l) (code i l))
    {pool pool' : Pool T S E A L R} {m : T × E} (sound : o.Sound pool) (ok : Meets o.ok pool m)
    (move : next code pool m = some pool') : o.Sound pool' := by
  obtain ⟨inv, safe⟩ := sound
  have here := safe m.1
  unfold next at move
  split at move
  · cases move
  · -- a label: the block that begins there
    rename_i l at_
    cases move
    rw [at_] at here
    refine ⟨inv, fun j => ?_⟩
    by_cases same : j = m.1
    · subst same
      dsimp only
      rw [Function.update_self]
      exact blocks _ l _ inv here
    · dsimp only
      rw [Function.update_of_ne same]
      exact safe j
  · rename_i tag effect follow at_
    obtain ⟨s, change, same⟩ := Option.map_eq_some_iff.mp move
    subst same
    rw [at_] at here
    obtain ⟨inv', promised, rest⟩ := (here pool.shared inv (lawful.refl _ _)).2.2
      (ok tag (by rw [at_]; rfl)) m.2 s change
    refine ⟨inv', fun j => ?_⟩
    by_cases same : j = m.1
    · subst same
      dsimp only
      rw [Function.update_self]
      exact rest
    · dsimp only
      rw [Function.update_of_ne same]
      exact lawful.safe _ _ _ inv inv' (promised j same) (safe j)

theorem Sound.exec (lawful : o.Lawful) (blocks : ∀ i l, o.Holds i (o.label i l) (code i l))
    {pool pool' : Pool T S E A L R} {ms : List (T × E)} (sound : o.Sound pool)
    (allowed : Allowed (next code) (Meets o.ok) pool ms) (run : exec (next code) pool ms = some pool') :
    o.Sound pool' :=
  exec_invariant (Meets o.ok) o.Sound
    (fun _ _ _ sound ok move => sound.step lawful blocks ok move) sound allowed run

end Run

theorem Sound.stopped {pool : Pool T S E A L R} (sound : o.Sound pool) {r : R}
    (ended : pool.thread i = .stop r) : o.result i r pool.shared := by
  have here := sound.2 i
  rwa [ended] at here

theorem Sound.owed (lawful : o.Lawful) {pool : Pool T S E A L R} (sound : o.Sound pool) {tag : A}
    (here : tag ∈ (pool.thread i).tag) : o.owes i tag pool.shared := by
  have safe := sound.2 i
  cases at_ : pool.thread i with
  | stop r =>
    rw [at_] at here
    cases here
  | goto l =>
    rw [at_] at here
    cases here
  | act tag' effect next =>
    rw [at_] at here safe
    cases here
    exact (safe pool.shared sound.1 (lawful.refl i _)).1

theorem Sound.stuck [DecidableEq T] {code : T → L → Block S E A L R} (lawful : o.Lawful)
    {pool : Pool T S E A L R} (sound : o.Sound pool) {e : E} (stuck : next code pool (i, e) = none) :
    (∃ r, pool.thread i = .stop r) ∨ ∃ tag ∈ (pool.thread i).tag, o.waits i tag pool.shared := by
  have safe := sound.2 i
  unfold next at stuck
  cases at_ : pool.thread i with
  | stop r => exact Or.inl ⟨r, rfl⟩
  | goto l =>
    rw [at_] at stuck
    cases stuck
  | act tag effect follow =>
    rw [at_] at stuck safe
    exact Or.inr ⟨tag, rfl, (safe pool.shared sound.1 (lawful.refl i _)).2.1 e (Option.map_eq_none_iff.mp stuck)⟩

end Outline
end Blocks
