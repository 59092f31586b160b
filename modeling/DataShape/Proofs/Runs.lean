import DataShape.Report

/-!
# Runs that give a result

A run *gives* a result and a last state if it ends with them and not with a
fault.  What a composed run gives is read off its parts, so a run that is built
from small steps can be taken apart by rewriting and never has to be evaluated.
Events play no role here.
-/

namespace DataShape

namespace Report

variable {α β : Type}

@[simp] theorem result_pure (a : α) : (pure a : Report α).result = .ok a := rfl

@[simp] theorem result_map (f : α → β) (r : Report α) : (f <$> r).result = r.result.map f := rfl

theorem result_map_eq_ok_iff {f : α → β} {r : Report α} {b : β} :
    (f <$> r).result = .ok b ↔ ∃ a, r.result = .ok a ∧ f a = b := by
  rw [result_map]
  cases r.result <;> simp [Except.map]

/-- A composed report has a result if both parts have one. -/
@[simp] theorem result_bind_eq_ok_iff {r : Report α} {f : α → Report β} {b : β} :
    (r >>= f).result = .ok b ↔ ∃ a, r.result = .ok a ∧ (f a).result = .ok b := by
  change (andThen r f).result = .ok b ↔ _
  rw [andThen]
  cases r.result <;> simp

theorem result_bind_of_ok {r : Report α} {f : α → Report β} {a : α} (h : r.result = .ok a) :
    (r >>= f).result = (f a).result := by
  change (andThen r f).result = _
  rw [andThen, h]

theorem result_bind_of_error {r : Report α} {f : α → Report β} {fault : Fault}
    (h : r.result = .error fault) : (r >>= f).result = .error fault := by
  change (andThen r f).result = _
  rw [andThen, h]

end Report

namespace Run

variable {σ α β : Type}

/-- A run from a state ends with a result and another state. -/
def Gives (x : Run σ α) (s : σ) (a : α) (s' : σ) : Prop :=
  (x s).1.result = .ok a ∧ (x s).2 = s'

/-- A run gives one result and one state at most. -/
theorem Gives.unique {x : Run σ α} {s s₁ s₂ : σ} {a₁ a₂ : α} (h₁ : x.Gives s a₁ s₁)
    (h₂ : x.Gives s a₂ s₂) : a₁ = a₂ ∧ s₁ = s₂ := by
  obtain ⟨result₁, rfl⟩ := h₁
  obtain ⟨result₂, rfl⟩ := h₂
  rw [result₁] at result₂
  exact ⟨Except.ok.inj result₂, rfl⟩

theorem start_eq_ok_iff {x : Run σ α} {s s' : σ} {a : α} :
    (x.start s).result = .ok (a, s') ↔ x.Gives s a s' := by
  change (x s).1.result.map (fun a => (a, (x s).2)) = .ok (a, s') ↔ _
  rw [Gives]
  cases (x s).1.result <;> simp [Except.map]

/-! ## What composed runs give -/

@[simp] theorem gives_pure_iff {a b : α} {s s' : σ} :
    (pure a : Run σ α).Gives s b s' ↔ a = b ∧ s = s' := by
  simp [Gives]

/-- A composed run gives what its second part gives from where the first one ends. -/
@[simp] theorem gives_bind_iff {x : Run σ α} {f : α → Run σ β} {s s'' : σ} {b : β} :
    (x >>= f).Gives s b s'' ↔ ∃ a s', x.Gives s a s' ∧ (f a).Gives s' b s'' := by
  simp only [Gives, bind_apply, andThen]
  obtain ⟨⟨result, events⟩, s'⟩ := x s
  cases result with
  | error fault => simp
  | ok a =>
      constructor
      · intro h
        exact ⟨a, s', ⟨rfl, rfl⟩, h⟩
      · rintro ⟨_, _, ⟨eq, rfl⟩, h⟩
        cases eq
        exact h

@[simp] theorem gives_map_iff {x : Run σ α} {f : α → β} {s s' : σ} {b : β} :
    (f <$> x).Gives s b s' ↔ ∃ a, x.Gives s a s' ∧ f a = b := by
  simp only [Gives, map_apply, Report.map]
  cases (x s).1.result <;> simp [Except.map, and_assoc, and_comm]

@[simp] theorem gives_fail_iff {fault : Fault} {a : α} {s s' : σ} :
    ¬ (fail fault : Run σ α).Gives s a s' := by
  simp [Gives]

@[simp] theorem gives_emit_iff {event : Event} {u : Unit} {s s' : σ} :
    (emit event).Gives s u s' ↔ s = s' := by
  simp [Gives]

@[simp] theorem gives_update_iff {f : σ → σ} {u : Unit} {s s' : σ} :
    (update f).Gives s u s' ↔ f s = s' := by
  simp [Gives]

@[simp] theorem gives_ofDefinition_iff {result : Except DefinitionError α} {a : α} {s s' : σ} :
    (ofDefinition result).Gives s a s' ↔ result = .ok a ∧ s = s' := by
  cases result with
  | error e =>
      show (Except.error (.definition e) : Except Fault α) = .ok a ∧ s = s' ↔ _
      simp
  | ok b =>
      show (Except.ok b : Except Fault α) = .ok a ∧ s = s' ↔ _
      simp

@[simp] theorem gives_ofReport_iff {r : Report α} {a : α} {s s' : σ} :
    (ofReport r).Gives s a s' ↔ r.result = .ok a ∧ s = s' := by
  simp [Gives, ofReport]

end Run

end DataShape
