import OsvBenchmarks.Library.Runs

/-!
Programs that are sequences of atomic calls on a shared state, run alone or
interleaved call by call. A program's correctness under interference is shown by
assertions that hold between its calls and that the other programs' calls keep.
-/
namespace Interleave
open Runs
variable {S L A B : Type}

/-- A result, or a call: its label, its effect, and what follows by what it read. -/
inductive Prog (S L A : Type) : Type
  | ret (a : A)
  | call (label : L) (effect : S → S) (next : S → Prog S L A)

namespace Prog

def bind : Prog S L A → (A → Prog S L B) → Prog S L B
  | ret a, f => f a
  | call l effect next, f => call l effect fun s => (next s).bind f

instance : Monad (Prog S L) where
  pure := ret
  bind := bind

def atomic (label : L) (f : S → A × S) : Prog S L A :=
  call label (fun s => (f s).2) fun s => ret (f s).1

def each (body : A → Prog S L Unit) : List A → Prog S L Unit
  | [] => ret ()
  | a :: as => (body a).bind fun _ => each body as

def run : Prog S L A → S → A × S
  | ret a, s => (a, s)
  | call _ effect next, s => (next s).run (effect s)

theorem run_bind (p : Prog S L A) (f : A → Prog S L B) (s : S) :
    (p >>= f).run s = (f (p.run s).1).run (p.run s).2 := by
  induction p generalizing s with
  | ret a => rfl
  | call l effect next ih => exact ih s (effect s)

theorem bind_assoc {C : Type} (p : Prog S L A) (f : A → Prog S L B) (g : B → Prog S L C) :
    (p >>= f) >>= g = p >>= fun a => f a >>= g := by
  induction p with
  | ret a => rfl
  | call l effect next ih => exact congrArg (call l effect) (funext ih)

@[simp] theorem run_pure (a : A) (s : S) : (pure a : Prog S L A).run s = (a, s) := by
  rfl

@[simp] theorem run_atomic (l : L) (f : S → A × S) (s : S) : (atomic l f).run s = f s := by
  rfl

def finished : Prog S L A → Bool
  | ret _ => true
  | call _ _ _ => false

theorem finished_iff (p : Prog S L A) : p.finished = true ↔ ∃ a, p = ret a := by
  cases p with
  | ret a => simp [finished]
  | call l effect next => simp [finished]

/-- Run alone, the program makes only calls that `ok` allows. -/
def Clear (ok : L → S → Prop) : Prog S L A → S → Prop
  | ret _, _ => True
  | call l effect next, s => ok l s ∧ (next s).Clear ok (effect s)

theorem clear_bind {ok : L → S → Prop} (p : Prog S L A) (f : A → Prog S L B) (s : S) :
    (p >>= f).Clear ok s ↔ p.Clear ok s ∧ (f (p.run s).1).Clear ok (p.run s).2 := by
  induction p generalizing s with
  | ret a => exact (iff_of_eq (true_and _)).symm
  | call l effect next ih => exact (and_congr_right fun _ => ih s (effect s)).trans and_assoc.symm

theorem clear_true (p : Prog S L A) (s : S) : p.Clear (fun _ _ => True) s := by
  induction p generalizing s with
  | ret a => trivial
  | call l effect next ih => exact ⟨trivial, ih s (effect s)⟩

/-- Whatever it reads, the program makes only calls with such a label and effect. -/
def Calls (made : L → (S → S) → Prop) : Prog S L A → Prop
  | ret _ => True
  | call l effect next => made l effect ∧ ∀ s, (next s).Calls made

section Calls
variable {made : L → (S → S) → Prop}

theorem Calls.pure (a : A) : (pure a : Prog S L A).Calls made := by
  trivial

theorem Calls.atomic {l : L} {f : S → A × S} (this : made l fun s => (f s).2) :
    (Prog.atomic l f).Calls made :=
  ⟨this, fun _ => trivial⟩

theorem Calls.bind {p : Prog S L A} {f : A → Prog S L B} (first : p.Calls made)
    (second : ∀ a, (f a).Calls made) : (p >>= f).Calls made := by
  induction p with
  | ret a => exact second a
  | call l effect next ih => exact ⟨first.1, fun s => ih s (first.2 s)⟩

theorem Calls.of_bind {p : Prog S L A} {f : A → Prog S L B} (whole : (p >>= f).Calls made) :
    p.Calls made := by
  induction p with
  | ret a => trivial
  | call l effect next ih => exact ⟨whole.1, fun s => ih s (whole.2 s)⟩

theorem Calls.mono {made' : L → (S → S) → Prop} {p : Prog S L A} (calls : p.Calls made)
    (more : ∀ l effect, made l effect → made' l effect) : p.Calls made' := by
  induction p with
  | ret a => trivial
  | call l effect next ih => exact ⟨more l effect calls.1, fun s => ih s (calls.2 s)⟩

theorem Calls.each {body : A → Prog S L Unit} {as : List A}
    (bodies : ∀ a ∈ as, (body a).Calls made) : (Prog.each body as).Calls made := by
  induction as with
  | nil => trivial
  | cons a as ih =>
    apply Calls.bind (bodies a (by simp))
    intro _
    exact ih fun b member => bodies b (List.mem_cons_of_mem _ member)

end Calls
end Prog

/-- The shared state and the programs, each at the call it takes next. -/
structure Pool (S L A : Type) where
  shared : S
  threads : List (Prog S L A)

def next (pool : Pool S L A) (i : ℕ) : Option (Pool S L A) :=
  match pool.threads[i]? with
  | some (.call _ effect next) =>
    some ⟨effect pool.shared, pool.threads.set i (next pool.shared)⟩
  | some (.ret _) => none
  | none => none

/-- The call that thread `i` takes next is one that `ok` allows. -/
def Meets (ok : L → S → Prop) (pool : Pool S L A) (i : ℕ) : Prop :=
  match pool.threads[i]? with
  | some (.call l _ _) => ok l pool.shared
  | some (.ret _) => True
  | none => True

instance Meets.decidable {ok : L → S → Prop} [∀ l s, Decidable (ok l s)] (pool : Pool S L A)
    (i : ℕ) : Decidable (Meets ok pool i) :=
  match here : pool.threads[i]? with
  | some (.call l _ _) => decidable_of_iff (ok l pool.shared) (by rw [Meets, here])
  | some (.ret _) => .isTrue (by rw [Meets, here]; trivial)
  | none => .isTrue (by rw [Meets, here]; trivial)

section Rules
variable (inv : S → Prop) (ok : L → S → Prop) (rely guar : S → S → Prop)

def Stable (assertion : S → Prop) : Prop :=
  ∀ s s', inv s → inv s' → assertion s → rely s s' → assertion s'

/-- From `pre` on, every allowed call keeps the invariant and the guarantee, and the result
meets `post`, whatever the other programs do between the calls. -/
def Holds : (S → Prop) → Prog S L A → (A → S → Prop) → Prop
  | pre, .ret a, post => ∀ s, inv s → pre s → post a s
  | pre, .call l effect next, post => ∀ s, inv s → pre s → ok l s →
      inv (effect s) ∧ guar s (effect s) ∧
        ∃ mid : S → Prop, mid (effect s) ∧ Stable inv rely mid ∧ Holds mid (next s) post

variable {inv ok rely guar}

theorem Holds.weaken {pre pre' : S → Prop} {p : Prog S L A} {post post' : A → S → Prop}
    (holds : Holds inv ok rely guar pre p post) (before : ∀ s, inv s → pre' s → pre s)
    (after : ∀ a s, inv s → post a s → post' a s) : Holds inv ok rely guar pre' p post' := by
  induction p generalizing pre pre' with
  | ret a =>
    intro s hs hp
    exact after a s hs (holds s hs (before s hs hp))
  | call l effect next ih =>
    intro s hs hp allowed
    obtain ⟨keeps, promised, mid, here, stable, rest⟩ := holds s hs (before s hs hp) allowed
    exact ⟨keeps, promised, mid, here, stable, ih s rest fun _ _ h => h⟩

theorem Holds.pure {pre : S → Prop} {a : A} {post : A → S → Prop}
    (h : ∀ s, inv s → pre s → post a s) : Holds inv ok rely guar pre (pure a : Prog S L A) post :=
  h

theorem Holds.atomic {pre : S → Prop} {l : L} {f : S → A × S} {post : A → S → Prop}
    (step : ∀ s, inv s → pre s → ok l s → inv (f s).2 ∧ guar s (f s).2 ∧ post (f s).1 (f s).2)
    (stable : ∀ a, Stable inv rely (post a)) :
    Holds inv ok rely guar pre (Prog.atomic l f) post := by
  intro s hs hp allowed
  obtain ⟨keeps, promised, here⟩ := step s hs hp allowed
  exact ⟨keeps, promised, post (f s).1, here, stable _, fun _ _ h => h⟩

theorem Holds.bind {pre : S → Prop} {p : Prog S L A} {mid : A → S → Prop}
    {f : A → Prog S L B} {post : B → S → Prop} (first : Holds inv ok rely guar pre p mid)
    (second : ∀ a, Holds inv ok rely guar (mid a) (f a) post) :
    Holds inv ok rely guar pre (p >>= f) post := by
  induction p generalizing pre with
  | ret a => exact (second a).weaken first fun _ _ _ h => h
  | call l effect next ih =>
    intro s hs hp allowed
    obtain ⟨keeps, promised, between, here, stable, rest⟩ := first s hs hp allowed
    exact ⟨keeps, promised, between, here, stable, ih s rest⟩

theorem Holds.each {pre : S → Prop} {body : A → Prog S L Unit} {as : List A}
    (bodies : ∀ a ∈ as, Holds inv ok rely guar pre (body a) fun _ => pre) :
    Holds inv ok rely guar pre (Prog.each body as) fun _ => pre := by
  induction as with
  | nil => exact Holds.pure fun _ _ here => here
  | cons a as ih =>
    apply Holds.bind (bodies a (by simp))
    intro _
    exact ih fun b member => bodies b (List.mem_cons_of_mem _ member)

theorem Holds.never {pre : S → Prop} {p : Prog S L A} {post : A → S → Prop}
    (never : ∀ s, inv s → ¬ pre s) : Holds inv ok rely guar pre p post := by
  cases p with
  | ret a => exact fun s inv here => absurd here (never s inv)
  | call l effect next => exact fun s inv here => absurd here (never s inv)

theorem Holds.calls {made : L → (S → S) → Prop} {pre : S → Prop} {p : Prog S L A}
    (calls : p.Calls made) (stable : Stable inv rely pre)
    (keeps : ∀ l effect, made l effect → ∀ s, inv s → pre s →
      inv (effect s) ∧ guar s (effect s) ∧ pre (effect s)) :
    Holds inv ok rely guar pre p fun _ => pre := by
  induction p with
  | ret a => exact fun _ _ here => here
  | call l effect next ih =>
    intro s hs hp _
    obtain ⟨keep, promised, after⟩ := keeps l effect calls.1 s hs hp
    exact ⟨keep, promised, pre, after, stable, ih s (calls.2 s)⟩

end Rules

section Pool
variable {inv : S → Prop} {ok : L → S → Prop} {rely guar : ℕ → S → S → Prop}
variable {post : ℕ → A → S → Prop}

/-- Every program is at an assertion from which it goes on to meet its postcondition. -/
def Proven (inv : S → Prop) (ok : L → S → Prop) (rely guar : ℕ → S → S → Prop)
    (post : ℕ → A → S → Prop) (pool : Pool S L A) : Prop :=
  inv pool.shared ∧ ∀ i p, pool.threads[i]? = some p →
    ∃ pre : S → Prop, pre pool.shared ∧ Stable inv (rely i) pre ∧
      Holds inv ok (rely i) (guar i) pre p (post i)

theorem Proven.step (compatible : ∀ i j, i ≠ j → ∀ s s', guar j s s' → rely i s s')
    {pool pool' : Pool S L A} {i : ℕ} (proven : Proven inv ok rely guar post pool)
    (allowed : Meets ok pool i) (move : next pool i = some pool') :
    Proven inv ok rely guar post pool' := by
  obtain ⟨start, threads⟩ := proven
  unfold next at move
  split at move
  · rename_i l effect follow here
    cases move
    rw [Meets, here] at allowed
    obtain ⟨pre, holds, _, rest⟩ := threads i _ here
    obtain ⟨keeps, promised, mid, there, stable, rest⟩ := rest pool.shared start holds allowed
    refine ⟨keeps, ?_⟩
    intro j p found
    have range : i < pool.threads.length := (List.getElem?_eq_some_iff.mp here).1
    by_cases same : i = j
    · subst same
      rw [List.getElem?_set_self range] at found
      cases found
      exact ⟨mid, there, stable, rest⟩
    · rw [List.getElem?_set_ne same] at found
      obtain ⟨other, held, kept, outline⟩ := threads j p found
      refine ⟨other, ?_, kept, outline⟩
      exact kept _ _ start keeps held (compatible j i (fun h => same h.symm) _ _ promised)
  · cases move
  · cases move

/-- Programs proven against each other's guarantees stay so in every interleaving. -/
theorem Proven.exec (compatible : ∀ i j, i ≠ j → ∀ s s', guar j s s' → rely i s s')
    {pool pool' : Pool S L A} {moves : List ℕ} (proven : Proven inv ok rely guar post pool)
    (allowed : Allowed next (Meets ok) pool moves) (run : exec next pool moves = some pool') :
    Proven inv ok rely guar post pool' :=
  exec_invariant (Meets ok) (Proven inv ok rely guar post)
    (fun _ _ _ proven ok move => proven.step compatible ok move) proven allowed run

theorem Proven.finished {pool : Pool S L A} (proven : Proven inv ok rely guar post pool) {i : ℕ}
    {a : A} (done : pool.threads[i]? = some (.ret a)) : post i a pool.shared := by
  obtain ⟨pre, here, _, holds⟩ := proven.2 i _ done
  exact holds pool.shared proven.1 here

theorem exec_threads {pool pool' : Pool S L A} {moves : List ℕ}
    (run : exec next pool moves = some pool') : pool'.threads.length = pool.threads.length := by
  apply exec_preserves (fun p : Pool S L A => p.threads.length = pool.threads.length) _ rfl run
  intro p i p' same move
  unfold next at move
  split at move
  · cases move
    rw [List.length_set, same]
  · cases move
  · cases move

theorem exec_calls {made : L → (S → S) → Prop} {I : S → Prop}
    (keeps : ∀ l effect, made l effect → ∀ s, I s → I (effect s)) {pool pool' : Pool S L A}
    {moves : List ℕ} (threads : ∀ p ∈ pool.threads, p.Calls made) (start : I pool.shared)
    (run : exec next pool moves = some pool') :
    I pool'.shared ∧ ∀ p ∈ pool'.threads, p.Calls made := by
  apply exec_preserves (fun pool : Pool S L A => I pool.shared ∧ ∀ p ∈ pool.threads, p.Calls made)
    _ ⟨start, threads⟩ run
  rintro pool i pool' ⟨start, threads⟩ move
  unfold next at move
  split at move
  · rename_i l effect follow here
    cases move
    have made := threads _ (List.mem_of_getElem? here)
    refine ⟨keeps l effect made.1 _ start, ?_⟩
    intro p member
    rcases List.mem_or_eq_of_mem_set member with old | rfl
    · exact threads p old
    · exact made.2 _
  · cases move
  · cases move

theorem allowed_calls {made : L → (S → S) → Prop} (permits : ∀ l effect s, made l effect → ok l s)
    {pool : Pool S L A} {moves : List ℕ} (threads : ∀ p ∈ pool.threads, p.Calls made) :
    Allowed next (Meets ok) pool moves := by
  induction moves generalizing pool with
  | nil => trivial
  | cons i moves ih =>
    constructor
    · unfold Meets
      split
      · rename_i here
        exact permits _ _ _ (threads _ (List.mem_of_getElem? here)).1
      · trivial
      · trivial
    · intro pool' move
      apply ih
      have one : exec next pool [i] = some pool' := by
        rw [exec, move]
        rfl
      exact (exec_calls (I := fun _ => True) (fun _ _ _ _ _ => trivial) threads trivial one).2

theorem allowed_always (always : ∀ l s, ok l s) (pool : Pool S L A) (moves : List ℕ) :
    Allowed next (Meets ok) pool moves := by
  induction moves generalizing pool with
  | nil => trivial
  | cons i moves ih =>
    refine ⟨?_, fun pool' _ => ih pool'⟩
    unfold Meets
    split
    · exact always _ _
    · trivial
    · trivial

/-- A thread may run a part of its program before the others go on. -/
theorem exec_clear {pool : Pool S L A} {i : ℕ} {p : Prog S L B} {f : B → Prog S L A}
    (here : pool.threads[i]? = some (p >>= f)) (clear : p.Clear ok pool.shared) :
    ∃ moves, Allowed next (Meets ok) pool moves ∧ exec next pool moves =
      some ⟨(p.run pool.shared).2, pool.threads.set i (f (p.run pool.shared).1)⟩ := by
  induction p generalizing pool with
  | ret b =>
    refine ⟨[], trivial, ?_⟩
    have same : pool.threads.set i (f b) = pool.threads := by
      apply List.ext_getElem?
      intro j
      by_cases at' : i = j
      · subst at'
        rw [List.getElem?_set_self (List.getElem?_eq_some_iff.mp here).1, here]
        rfl
      · rw [List.getElem?_set_ne at']
    simp only [exec, Prog.run, same]
  | call l effect follow ih =>
    have range : i < pool.threads.length := (List.getElem?_eq_some_iff.mp here).1
    have move : next pool i = some ⟨effect pool.shared,
        pool.threads.set i (follow pool.shared >>= f)⟩ := by
      rw [next, here]
      rfl
    have there : (pool.threads.set i (follow pool.shared >>= f))[i]? =
        some (follow pool.shared >>= f) := List.getElem?_set_self range
    obtain ⟨moves, allowed, run⟩ := @ih pool.shared
      ⟨effect pool.shared, pool.threads.set i (follow pool.shared >>= f)⟩ there clear.2
    refine ⟨i :: moves, ⟨?_, ?_⟩, ?_⟩
    · rw [Meets, here]
      exact clear.1
    · intro pool' moved
      rw [move] at moved
      cases moved
      exact allowed
    · rw [exec_cons_iff]
      refine ⟨_, move, ?_⟩
      rw [run, List.set_set]
      rfl

theorem exec_part {pool : Pool S L A} {i : ℕ} {p : Prog S L B} {f : B → Prog S L A}
    (here : pool.threads[i]? = some (p >>= f)) :
    ∃ moves, exec next pool moves =
      some ⟨(p.run pool.shared).2, pool.threads.set i (f (p.run pool.shared).1)⟩ := by
  obtain ⟨moves, _, run⟩ := exec_clear here (Prog.clear_true p pool.shared)
  exact ⟨moves, run⟩

theorem exec_finishes (pool : Pool S L A) :
    ∃ moves pool', exec next pool moves = some pool' ∧ ∀ p ∈ pool'.threads, ∃ a, p = .ret a := by
  have upto : ∀ n ≤ pool.threads.length, ∃ moves pool', exec next pool moves = some pool' ∧
      pool'.threads.length = pool.threads.length ∧
      ∀ i < n, ∃ a, pool'.threads[i]? = some (.ret a) := by
    intro n
    induction n with
    | zero => exact fun _ => ⟨[], pool, rfl, rfl, fun _ none => absurd none (Nat.not_lt_zero _)⟩
    | succ n ih =>
      intro range
      obtain ⟨moves, mid, run, length, done⟩ := ih (Nat.le_of_succ_le range)
      obtain ⟨p, here⟩ : ∃ p, mid.threads[n]? = some p :=
        ⟨_, List.getElem?_eq_getElem (by omega)⟩
      have whole : p = p >>= fun a => Prog.ret a := by
        clear here
        induction p with
        | ret a => rfl
        | call l effect follow ih => exact congrArg (Prog.call l effect) (funext ih)
      rw [whole] at here
      obtain ⟨more, rest⟩ := exec_part here
      refine ⟨moves ++ more, _, exec_append_iff.mpr ⟨mid, run, rest⟩, ?_, ?_⟩
      · simp [length]
      · intro i bound
        by_cases same : n = i
        · subst same
          exact ⟨_, List.getElem?_set_self (by omega)⟩
        · rw [List.getElem?_set_ne same]
          exact done i (by omega)
  obtain ⟨moves, pool', run, length, done⟩ := upto _ (Nat.le_refl _)
  refine ⟨moves, pool', run, ?_⟩
  intro p member
  obtain ⟨i, here⟩ := List.mem_iff_getElem?.mp member
  have range := (List.getElem?_eq_some_iff.mp here).1
  obtain ⟨a, there⟩ := done i (by omega)
  rw [here] at there
  exact ⟨a, Option.some.inj there⟩

end Pool
end Interleave
