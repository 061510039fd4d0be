import OsvBenchmarks.Library.Runs

/-!
Computations that report events on their way. What a computation ensures is said
of its events and of its result: each event is good as long as those before it
met a condition, and the result has a property if all of them did.
-/
namespace Runs

/-- The events that a computation has reported, and its result, if it did not stop before. -/
structure Report (E : Type*) (α : Type) where
  events : List E
  result : Option α

namespace Report
variable {E : Type*} {α β : Type}

def stop : Report E α := ⟨[], none⟩

def tell (e : E) : Report E Unit := ⟨[e], some ()⟩

def bind : Report E α → (α → Report E β) → Report E β
  | ⟨events, none⟩, _ => ⟨events, none⟩
  | ⟨events, some a⟩, next =>
    match next a with
    | ⟨more, result⟩ => ⟨events ++ more, result⟩

instance : Monad (Report E) where
  pure a := ⟨[], some a⟩
  bind := bind

instance : LawfulMonad (Report E) := LawfulMonad.mk' _
  (by
    rintro _ ⟨events, result⟩
    cases result with
    | none => rfl
    | some a => exact congrArg (Report.mk · _) (List.append_nil events))
  (fun _ _ => rfl)
  (by
    rintro _ _ _ ⟨events, result⟩ f g
    cases result with
    | none => rfl
    | some a =>
      change Report.bind (Report.bind _ f) g = Report.bind _ fun a => Report.bind (f a) g
      unfold Report.bind
      dsimp only
      obtain ⟨more, result⟩ := f a
      cases result with
      | none => rfl
      | some b => exact congrArg (Report.mk · _) (List.append_assoc _ _ _))

theorem stop_bind (next : α → Report E β) : (stop >>= next) = stop := rfl

theorem tell_bind (e : E) (next : Unit → Report E β) :
    (tell e >>= next) = ⟨e :: (next ()).events, (next ()).result⟩ := rfl

variable (met good : E → Prop)

structure Ensures (post : α → Prop) (report : Report E α) : Prop where
  sustained : Sustained met good report.events
  returns : (∀ e ∈ report.events, met e) → ∀ a, report.result = some a → post a

variable {met good} {post : α → Prop} {post' : β → Prop}

theorem ensures_stop : Ensures met good post (stop : Report E α) where
  sustained := trivial
  returns _ _ none := absurd none.symm (Option.some_ne_none _)

theorem ensures_pure {a : α} (holds : post a) : Ensures met good post (pure a : Report E α) where
  sustained := trivial
  returns _ := by
    rintro _ ⟨⟩
    exact holds

theorem Ensures.mono {weaker : α → Prop} {report : Report E α} (ensures : Ensures met good post report)
    (implies : ∀ a, post a → weaker a) : Ensures met good weaker report where
  sustained := ensures.sustained
  returns all a result := implies a (ensures.returns all a result)

theorem Ensures.bind {first : Report E α} {next : α → Report E β} (ensures : Ensures met good post first)
    (rest : ∀ a, post a → Ensures met good post' (next a)) : Ensures met good post' (first >>= next) := by
  obtain ⟨events, result⟩ := first
  cases result with
  | none =>
    exact ⟨ensures.sustained, fun _ _ none => absurd none.symm (Option.some_ne_none _)⟩
  | some a =>
    have returns := fun all => ensures.returns all a rfl
    constructor
    · refine sustained_append.mpr ⟨ensures.sustained, fun all => ?_⟩
      exact (rest a (returns all)).sustained
    · intro all
      have before : ∀ e ∈ events, met e := fun e mem => all e (List.mem_append_left _ mem)
      have after : ∀ e ∈ (next a).events, met e := fun e mem => all e (List.mem_append_right _ mem)
      exact (rest a (returns before)).returns after

theorem ensures_tell {e : E} {next : Unit → Report E β} (holds : good e)
    (rest : met e → Ensures met good post' (next ())) : Ensures met good post' (tell e >>= next) := by
  rw [tell_bind]
  constructor
  · exact ⟨holds, fun here => (rest here).sustained⟩
  · intro all
    have behind : ∀ e ∈ (next ()).events, met e := fun e mem => all e (List.mem_cons_of_mem _ mem)
    exact (rest (all e List.mem_cons_self)).returns behind

end Report
end Runs
