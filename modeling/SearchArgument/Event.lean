import SearchArgument.Fault

/-! What an evaluation reports while it runs. A recorded computation returns its
events with its value; an attempt is a recorded computation that may fail, and keeps
the events from before the failure. -/

namespace SearchArgument

/-- The entry points whose uses are counted. -/
inductive Evaluation where
  | interval
  | union
  | intersection
  | complement
  deriving DecidableEq

inductive Event where
  | evaluated (e : Evaluation)
  | merged (n : Nat)
  | discretized
  | emptyResult
  deriving DecidableEq

structure Recorded (α : Type) where
  value : α
  events : List Event

namespace Recorded

variable {α β : Type}

instance : Monad Recorded where
  pure a := ⟨a, []⟩
  bind m f := ⟨(f m.value).value, m.events ++ (f m.value).events⟩

instance : LawfulMonad Recorded := .mk' _ (fun _ => by simp [Functor.map])
  (fun _ _ => by simp [pure, bind]) (fun _ _ _ => by simp [bind])

@[simp] theorem value_pure (a : α) : (pure a : Recorded α).value = a := rfl

@[simp] theorem events_pure (a : α) : (pure a : Recorded α).events = [] := rfl

@[simp] theorem value_bind (m : Recorded α) (f : α → Recorded β) :
    (m >>= f).value = (f m.value).value := rfl

@[simp] theorem events_bind (m : Recorded α) (f : α → Recorded β) :
    (m >>= f).events = m.events ++ (f m.value).events := rfl

theorem events_map (f : α → β) (m : Recorded α) : (f <$> m).events = m.events :=
  List.append_nil _

theorem value_foldlM (f : β → α → Recorded β) (b : β) (as : List α) :
    (as.foldlM f b).value = as.foldl (fun b a => (f b a).value) b := by
  induction as generalizing b with
  | nil => rfl
  | cons a as ih => rw [List.foldlM_cons, value_bind, ih, List.foldl_cons]

end Recorded

/-- Reports one event. -/
def note (e : Event) : Recorded Unit := ⟨(), [e]⟩

/-- Reports an event only if the condition holds. -/
def noteIf (b : Bool) (e : Event) : Recorded Unit := if b then note e else pure ()

abbrev Attempt (α : Type) := ExceptT Fault Recorded α

namespace Attempt

variable {α β : Type}

/-! What becomes of an attempt, apart from its events, follows the rules of `Except`. -/

@[simp] theorem value_pure (a : α) : (pure a : Attempt α).run.value = .ok a := rfl

@[simp] theorem value_throw (f : Fault) : (throw f : Attempt α).run.value = .error f := rfl

@[simp] theorem value_bind (m : Attempt α) (f : α → Attempt β) :
    (m >>= f).run.value = m.run.value >>= fun a => (f a).run.value := by
  rw [ExceptT.run_bind, Recorded.value_bind]
  cases m.run.value <;> rfl

@[simp] theorem value_lift (m : Recorded α) : (liftM m : Attempt α).run.value = .ok m.value := rfl

@[simp] theorem value_liftExcept (e : Except Fault α) : (liftM e : Attempt α).run.value = e := rfl

theorem bind_eq_ok {m : Attempt α} {f : α → Attempt β} {b : β} :
    (m >>= f).run.value = .ok b ↔ ∃ a, m.run.value = .ok a ∧ (f a).run.value = .ok b := by
  rw [value_bind]
  cases m.run.value <;> simp [bind, Except.bind]

variable {m : Attempt α} {f : α → Attempt β} {fault : Fault}

theorem value_map (g : α → β) (m : Attempt α) : (g <$> m).run.value = m.run.value.map g := by
  rw [map_eq_pure_bind, value_bind]
  cases m.run.value <;> rfl

theorem map_eq_error {g : α → β} :
    (g <$> m).run.value = .error fault ↔ m.run.value = .error fault := by
  rw [value_map]
  cases m.run.value <;> simp [Except.map]

/-! ### Events of attempts -/

@[simp] theorem events_pure (a : α) : (pure a : Attempt α).run.events = [] := rfl

@[simp] theorem events_lift (m : Recorded α) : (liftM m : Attempt α).run.events = m.events :=
  List.append_nil _

theorem events_bind_of_ok {a : α} (h : m.run.value = .ok a) :
    (m >>= f).run.events = m.run.events ++ (f a).run.events := by
  rw [ExceptT.run_bind, Recorded.events_bind, h]

theorem events_bind_of_error (h : m.run.value = .error fault) :
    (m >>= f).run.events = m.run.events := by
  rw [ExceptT.run_bind, Recorded.events_bind, h]
  exact List.append_nil _

/-! ### Effects

The effect of an attempt is all that it does apart from its result: what it reports, and the fault
that it fails with. Two attempts of one effect may come to different results, but they fail alike
and report alike. -/

/-- The attempt without its result. -/
def effect (m : Attempt α) : Attempt Unit := (fun _ => ()) <$> m

@[simp] theorem effect_pure (a : α) : effect (pure a : Attempt α) = pure () := map_pure _ _

theorem effect_bind (m : Attempt α) (f : α → Attempt β) :
    effect (m >>= f) = m >>= fun a => effect (f a) :=
  map_bind _ _ _

/-- What follows may look at the result, as long as its own effect does not depend on it. -/
theorem effect_bind_of_eq {k : Attempt Unit} (h : ∀ a, effect (f a) = k) :
    effect (m >>= f) = (do effect m; k) := by
  rw [effect_bind, effect, bind_map_left, funext h]

theorem effect_bind_pure {g : α → β} : effect (m >>= fun a => pure (g a)) = effect m := by
  rw [effect_bind, effect, map_eq_pure_bind]
  rfl

theorem events_effect (m : Attempt α) : (effect m).run.events = m.run.events := by
  rw [effect, map_eq_pure_bind]
  cases h : m.run.value with
  | ok a => rw [events_bind_of_ok h, events_pure, List.append_nil]
  | error f => rw [events_bind_of_error h]

theorem value_effect (m : Attempt α) : (effect m).run.value = m.run.value.map fun _ => () :=
  value_map _ m

theorem effect_eq_error (m : Attempt α) :
    (effect m).run.value = .error fault ↔ m.run.value = .error fault :=
  map_eq_error

end Attempt

end SearchArgument
