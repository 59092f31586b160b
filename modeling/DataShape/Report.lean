import DataShape.Event

/-!
# Reports and runs

A `Report` is the result of a computation together with the events that led to
it, in order.  The result is a value or a `Fault`.  Events that come before a
fault are kept.

A `Run` is a computation that also changes a state.  The state survives a fault
too, so what a visitor has collected can still be read after its walk was
aborted.  Whatever a run does depends only on the state it starts from, and
never on earlier events.

Both are lawful monads, so steps can be grouped in any way (`bind_assoc`).
-/

namespace DataShape

/-- Why a computation has no result. -/
inductive Fault where
  /-- The schema cannot be used. -/
  | definition (error : DefinitionError)
  /-- The walk went deeper than its limit. -/
  | limit
deriving DecidableEq, Repr

/-! ## Reports -/

/-- A result and the events that led to it. -/
structure Report (α : Type) where
  result : Except Fault α
  events : List Event

namespace Report

variable {α β : Type}

/-- A result without events. -/
def ofExcept (result : Except Fault α) : Report α := ⟨result, []⟩

/-- Go on with the result, unless there is a fault. -/
def andThen (r : Report α) (f : α → Report β) : Report β :=
  match r.result with
  | .error fault => ⟨.error fault, r.events⟩
  | .ok a =>
      let next := f a
      ⟨next.result, r.events ++ next.events⟩

/-- Change the result and keep the events. -/
def map (f : α → β) (r : Report α) : Report β := ⟨r.result.map f, r.events⟩

instance : Monad Report where
  pure a := ⟨.ok a, []⟩
  bind := andThen
  map := map

/-- To change a result is to go on with the changed result and no more events. -/
theorem bind_pure_comp (f : α → β) (r : Report α) : (r >>= fun a => pure (f a)) = f <$> r := by
  obtain ⟨result, events⟩ := r
  cases result with
  | error fault => rfl
  | ok a =>
      change Report.mk (.ok (f a)) (events ++ []) = ⟨.ok (f a), events⟩
      rw [List.append_nil]

/-- It does not matter how steps are grouped. -/
theorem bind_assoc {γ : Type} (r : Report α) (f : α → Report β) (g : β → Report γ) :
    (r >>= f >>= g) = (r >>= fun a => f a >>= g) := by
  obtain ⟨result, events⟩ := r
  cases result with
  | error fault => rfl
  | ok a =>
      change andThen (andThen ⟨.ok a, events⟩ f) g = andThen ⟨.ok a, events⟩ fun a => andThen (f a) g
      cases h : (f a).result with
      | error fault => simp only [andThen, h]
      | ok b => simp only [andThen, h, List.append_assoc]

instance : LawfulMonad Report :=
  LawfulMonad.mk' Report
    (fun r => by
      obtain ⟨result, events⟩ := r
      cases result <;> rfl)
    (fun _ _ => rfl) bind_assoc (fun _ _ => rfl) (fun _ _ => rfl) (fun _ _ => rfl) bind_pure_comp

end Report

/-! ## Runs -/

/-- A computation that reports and changes a state. -/
def Run (σ α : Type) : Type := σ → Report α × σ

namespace Run

variable {σ τ α β : Type}

/-- Go on with the result and the changed state, unless there is a fault. -/
def andThen (x : Run σ α) (f : α → Run σ β) : Run σ β := fun s =>
  match x s with
  | (⟨.error fault, events⟩, s') => (⟨.error fault, events⟩, s')
  | (⟨.ok a, events⟩, s') =>
      let (next, s'') := f a s'
      (⟨next.result, events ++ next.events⟩, s'')

/-- Change the result and keep the events and the state. -/
def map (f : α → β) (x : Run σ α) : Run σ β := fun s =>
  let (report, s') := x s
  (report.map f, s')

instance : Monad (Run σ) where
  pure a := fun s => (⟨.ok a, []⟩, s)
  bind := andThen
  map := map

/-- To change a result is to go on with the changed result and no more events. -/
theorem bind_pure_comp (f : α → β) (x : Run σ α) : (x >>= fun a => pure (f a)) = f <$> x := by
  funext s
  change andThen x (fun a s => (⟨.ok (f a), []⟩, s)) s = map f x s
  simp only [andThen, map]
  obtain ⟨⟨result, events⟩, s'⟩ := x s
  cases result with
  | error fault => rfl
  | ok a => simp [Report.map, Except.map]

/-- It does not matter how steps are grouped. -/
theorem bind_assoc {γ : Type} (x : Run σ α) (f : α → Run σ β) (g : β → Run σ γ) :
    (x >>= f >>= g) = (x >>= fun a => f a >>= g) := by
  funext s
  change andThen (andThen x f) g s = andThen x (fun a => andThen (f a) g) s
  simp only [andThen]
  obtain ⟨⟨result, events⟩, s'⟩ := x s
  cases result with
  | error fault => rfl
  | ok a =>
      simp only
      obtain ⟨⟨next, events'⟩, s''⟩ := f a s'
      cases next with
      | error fault => rfl
      | ok b => simp only [List.append_assoc]

instance : LawfulMonad (Run σ) :=
  LawfulMonad.mk' (Run σ)
    (fun x => by
      funext s
      change map id x s = x s
      simp only [map]
      obtain ⟨⟨result, events⟩, s'⟩ := x s
      cases result <;> rfl)
    (fun _ _ => rfl) bind_assoc (fun _ _ => rfl) (fun _ _ => rfl) (fun _ _ => rfl) bind_pure_comp

/-- End with a fault. -/
def fail (fault : Fault) : Run σ α := fun s => (⟨.error fault, []⟩, s)

/-- Tell an event. -/
def emit (event : Event) : Run σ Unit := fun s => (⟨.ok (), [event]⟩, s)

/-- Change the state. -/
def update (f : σ → σ) : Run σ Unit := fun s => (⟨.ok (), []⟩, f s)

/-- A result, or the fault that the schema cannot be used. -/
def ofDefinition (result : Except DefinitionError α) : Run σ α := fun s =>
  (⟨result.mapError .definition, []⟩, s)

/-- A report that leaves the state alone. -/
def ofReport (r : Report α) : Run σ α := fun s => (r, s)

/-- The result and the last state of a run from a state. -/
def start (x : Run σ α) (s : σ) : Report (α × σ) :=
  let (report, s') := x s
  report.map (·, s')

/-! ## How runs compose -/

@[simp] theorem pure_apply (a : α) (s : σ) : (pure a : Run σ α) s = (⟨.ok a, []⟩, s) := rfl

@[simp] theorem bind_apply (x : Run σ α) (f : α → Run σ β) (s : σ) :
    (x >>= f) s = x.andThen f s := rfl

@[simp] theorem map_apply (f : α → β) (x : Run σ α) (s : σ) :
    (f <$> x) s = ((x s).1.map f, (x s).2) := rfl

@[simp] theorem fail_apply (fault : Fault) (s : σ) :
    (fail fault : Run σ α) s = (⟨.error fault, []⟩, s) := rfl

@[simp] theorem emit_apply (event : Event) (s : σ) :
    emit event s = (⟨.ok (), [event]⟩, s) := rfl

@[simp] theorem update_apply (f : σ → σ) (s : σ) : update f s = (⟨.ok (), []⟩, f s) := rfl

end Run

end DataShape
