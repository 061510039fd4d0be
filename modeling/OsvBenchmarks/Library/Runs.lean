import Mathlib.Data.List.Basic

/-!
Finite runs of a machine whose steps are partial functions of a state and a
move. A move names the agent that acts together with every choice left to the
environment, so a run is determined by its initial state and its moves.
-/
namespace Runs
variable {S M : Type*}

def exec (next : S → M → Option S) : S → List M → Option S
  | s, [] => some s
  | s, m :: ms => (next s m).bind fun s' => exec next s' ms

theorem exec_cons_iff {next : S → M → Option S} {s u : S} {m : M} {ms : List M} :
    exec next s (m :: ms) = some u ↔ ∃ s', next s m = some s' ∧ exec next s' ms = some u := by
  simp [exec, Option.bind_eq_some_iff]

theorem exec_append {next : S → M → Option S} (s : S) (ms ns : List M) :
    exec next s (ms ++ ns) = (exec next s ms).bind fun s' => exec next s' ns := by
  induction ms generalizing s with
  | nil => rfl
  | cons m ms ih =>
    simp only [List.cons_append, exec, Option.bind_assoc]
    congr 1
    funext s'
    exact ih s'

theorem exec_append_iff {next : S → M → Option S} {s u : S} {ms ns : List M} :
    exec next s (ms ++ ns) = some u ↔
      ∃ s', exec next s ms = some s' ∧ exec next s' ns = some u := by
  rw [exec_append, Option.bind_eq_some_iff]

theorem exec_snoc_iff {next : S → M → Option S} {s u : S} {ms : List M} {m : M} :
    exec next s (ms ++ [m]) = some u ↔
      ∃ s', exec next s ms = some s' ∧ next s' m = some u := by
  rw [exec_append_iff]
  simp [exec]

/-- A run is executed by evaluating what is observed of its last state. -/
theorem exec_observe (next : S → M → Option S) (s : S) (ms : List M) {O : Type*} (f : S → O)
    (o : O) (h : (exec next s ms).map f = some o) : ∃ u, exec next s ms = some u ∧ f u = o :=
  Option.map_eq_some_iff.mp h

/-- Every move of the run is taken in a state that allows it. -/
def Allowed (next : S → M → Option S) (ok : S → M → Prop) : S → List M → Prop
  | _, [] => True
  | s, m :: ms => ok s m ∧ ∀ s', next s m = some s' → Allowed next ok s' ms

instance Allowed.decidable {next : S → M → Option S} {ok : S → M → Prop}
    [∀ s m, Decidable (ok s m)] : (s : S) → (ms : List M) → Decidable (Allowed next ok s ms)
  | _, [] => .isTrue trivial
  | s, m :: ms =>
    have : Decidable (∀ s', next s m = some s' → Allowed next ok s' ms) :=
      match next s m with
      | none => .isTrue fun _ none => nomatch none
      | some s' =>
        have : Decidable (Allowed next ok s' ms) := Allowed.decidable s' ms
        decidable_of_iff (Allowed next ok s' ms) (by simp)
    inferInstanceAs (Decidable (_ ∧ _))

theorem allowed_of_forall {next : S → M → Option S} {ok : S → M → Prop} {s : S}
    {ms : List M} (h : ∀ s, ∀ m ∈ ms, ok s m) : Allowed next ok s ms := by
  induction ms generalizing s with
  | nil => trivial
  | cons m ms ih =>
    exact ⟨h s m (by simp), fun s' _ => ih fun t n hn => h t n (by simp [hn])⟩

theorem allowed_mono {next : S → M → Option S} {ok weaker : S → M → Prop}
    (imp : ∀ s m, ok s m → weaker s m) {s : S} {ms : List M}
    (h : Allowed next ok s ms) : Allowed next weaker s ms := by
  induction ms generalizing s with
  | nil => trivial
  | cons m ms ih => exact ⟨imp s m h.1, fun s' hs => ih (h.2 s' hs)⟩

theorem allowed_congr {next : S → M → Option S} {ok ok' : S → M → Prop}
    (iff : ∀ s m, ok s m ↔ ok' s m) {s : S} {ms : List M} :
    Allowed next ok s ms ↔ Allowed next ok' s ms :=
  ⟨allowed_mono fun s m => (iff s m).mp, allowed_mono fun s m => (iff s m).mpr⟩

/-- What every allowed step preserves, every allowed run preserves. -/
theorem exec_invariant {next : S → M → Option S} (ok : S → M → Prop) (I : S → Prop)
    (step : ∀ s m s', I s → ok s m → next s m = some s' → I s')
    {s u : S} {ms : List M} (start : I s) (allowed : Allowed next ok s ms)
    (run : exec next s ms = some u) : I u := by
  induction ms generalizing s with
  | nil => cases run; exact start
  | cons m ms ih =>
    obtain ⟨s', hs, tail⟩ := exec_cons_iff.mp run
    exact ih (step s m s' start allowed.1 hs) (allowed.2 s' hs) tail

theorem exec_preserves {next : S → M → Option S} (I : S → Prop)
    (step : ∀ s m s', I s → next s m = some s' → I s') {s u : S} {ms : List M} (start : I s)
    (run : exec next s ms = some u) : I u :=
  exec_invariant (fun _ _ => True) I (fun s m s' h _ => step s m s' h) start
    (allowed_of_forall fun _ _ _ => trivial) run

/-- Where every step lowers a well-founded measure no run goes on for ever. -/
theorem no_infinite_run {next : S → M → Option S} {W : Type*} {lower : W → W → Prop}
    (wf : WellFounded lower) (measure : S → W) (I : S → Prop)
    (step : ∀ s m s', I s → next s m = some s' → I s' ∧ lower (measure s') (measure s))
    (run : ℕ → S) (start : I (run 0)) : ¬ ∀ k, ∃ m, next (run k) m = some (run (k + 1)) := by
  intro forever
  have holds : ∀ k, I (run k) := by
    intro k
    induction k with
    | zero => exact start
    | succ k ih =>
      obtain ⟨m, hm⟩ := forever k
      exact (step _ m _ ih hm).1
  have none : ∀ w, ∀ k, measure (run k) = w → False := by
    intro w
    induction w using wf.induction with
    | _ w ih =>
      intro k same
      obtain ⟨m, hm⟩ := forever k
      have fall := (step _ m _ (holds k) hm).2
      rw [same] at fall
      exact ih _ fall (k + 1) rfl
  exact none _ 0 rfl

theorem exec_stuck {next : S → M → Option S} {W : Type*} {lower : W → W → Prop}
    (wf : WellFounded lower) (measure : S → W) (I : S → Prop)
    (step : ∀ s m s', I s → next s m = some s' → I s' ∧ lower (measure s') (measure s))
    {s : S} (start : I s) : ∃ ms u, exec next s ms = some u ∧ I u ∧ ∀ m, next u m = none := by
  obtain ⟨w, same⟩ : ∃ w, measure s = w := ⟨_, rfl⟩
  induction w using wf.induction generalizing s with
  | _ w ih =>
    by_cases stuck : ∀ m, next s m = none
    · exact ⟨[], s, rfl, start, stuck⟩
    · obtain ⟨m, more⟩ := not_forall.mp stuck
      obtain ⟨s', taken⟩ := Option.ne_none_iff_exists'.mp more
      obtain ⟨holds, fall⟩ := step s m s' start taken
      obtain ⟨ms, u, run, last⟩ := ih _ (same ▸ fall) holds rfl
      exact ⟨m :: ms, u, exec_cons_iff.mpr ⟨s', taken, run⟩, last⟩

section Events
variable {A : Type*} {met good : A → Prop}

/-- Along a list of events: each is good, as long as those before it met a condition. -/
def Sustained (met good : A → Prop) : List A → Prop
  | [] => True
  | a :: events => good a ∧ (met a → Sustained met good events)

theorem sustained_append {events more : List A} : Sustained met good (events ++ more) ↔
    Sustained met good events ∧ ((∀ a ∈ events, met a) → Sustained met good more) := by
  induction events with
  | nil => simp [Sustained]
  | cons a events ih =>
    simp only [List.cons_append, Sustained, ih, List.forall_mem_cons]
    tauto

theorem Sustained.holds {before after : List A} {a : A}
    (sustained : Sustained met good (before ++ a :: after)) (held : ∀ b ∈ before, met b) : good a :=
  ((sustained_append.mp sustained).2 held).1

end Events

end Runs
