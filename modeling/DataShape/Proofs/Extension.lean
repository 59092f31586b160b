import DataShape.Proofs.Runs

/-!
# Computations with larger limits

A report *extends to* another one if both have the same result, a value or a fault,
or if the first one has run into its limit.  Two runs do so from related states if
they also end in related states.

The relation passes through all ways to compose reports and runs.  So two
computations that are built in the same way are compared part by part, and only a
part that reads the limit, the state or the schema needs an argument of its own.
Events play no role here.
-/

namespace DataShape

variable {σ α β : Type}

namespace Report

/-- The second report has the result of the first one, unless that ran into its limit. -/
def ExtendsTo (r r' : Report α) : Prop :=
  r.result = .error .limit ∨ r.result = r'.result

namespace ExtendsTo

theorem refl (r : Report α) : r.ExtendsTo r := .inr rfl

theorem eq {r r' : Report α} (h : r.ExtendsTo r') (ended : r.result ≠ .error .limit) :
    r'.result = r.result :=
  (h.resolve_left ended).symm

/-- What comes next only needs to extend for the results that there are. -/
theorem bind {r r' : Report α} {f g : α → Report β} (h : r.ExtendsTo r')
    (next : ∀ a, r.result = .ok a → (f a).ExtendsTo (g a)) : (r >>= f).ExtendsTo (r' >>= g) := by
  rcases h with limit | same
  · exact .inl (result_bind_of_error limit)
  · cases result : r.result with
    | error fault =>
        rw [result] at same
        exact .inr ((result_bind_of_error result).trans (result_bind_of_error same.symm).symm)
    | ok a =>
        rw [result] at same
        have rest := next a result
        rw [ExtendsTo, result_bind_of_ok result, result_bind_of_ok same.symm]
        exact rest

end ExtendsTo

end Report

namespace Run

/-- From related states the second run ends as the first one does and in a related
state, unless the first one ran into its limit. -/
def ExtendsTo (Q : σ → σ → Prop) (x y : Run σ α) : Prop :=
  ∀ s s', Q s s' → (x s).1.result = .error .limit ∨
    (x s).1.result = (y s').1.result ∧ Q (x s).2 (y s').2

theorem bind_apply_of_ok {x : Run σ α} {f : α → Run σ β} {s : σ} {a : α}
    (h : (x s).1.result = .ok a) : ((x >>= f) s).1.result = (f a (x s).2).1.result ∧
      ((x >>= f) s).2 = (f a (x s).2).2 := by
  rw [bind_apply, andThen]
  generalize x s = ended at h
  obtain ⟨⟨result, events⟩, s'⟩ := ended
  cases h
  exact ⟨rfl, rfl⟩

theorem bind_apply_of_error {x : Run σ α} {f : α → Run σ β} {s : σ} {fault : Fault}
    (h : (x s).1.result = .error fault) :
    ((x >>= f) s).1.result = .error fault ∧ ((x >>= f) s).2 = (x s).2 := by
  rw [bind_apply, andThen]
  generalize x s = ended at h
  obtain ⟨⟨result, events⟩, s'⟩ := ended
  cases h
  exact ⟨rfl, rfl⟩

variable {Q : σ → σ → Prop}

theorem extendsTo_pure (a : α) : ExtendsTo Q (pure a) (pure a) :=
  fun _ _ related => .inr ⟨rfl, related⟩

theorem extendsTo_fail_limit (y : Run σ α) : ExtendsTo Q (fail .limit) y :=
  fun _ _ _ => .inl rfl

theorem extendsTo_emit (event event' : Event) : ExtendsTo Q (emit event) (emit event') :=
  fun _ _ related => .inr ⟨rfl, related⟩

theorem extendsTo_update {f g : σ → σ} (h : ∀ s s', Q s s' → Q (f s) (g s')) :
    ExtendsTo Q (update f) (update g) :=
  fun _ _ related => .inr ⟨rfl, h _ _ related⟩

theorem extendsTo_ofDefinition (result : Except DefinitionError α) :
    ExtendsTo Q (ofDefinition result) (ofDefinition result) :=
  fun _ _ related => .inr ⟨rfl, related⟩

theorem extendsTo_ofReport {r r' : Report α} (h : r.ExtendsTo r') :
    ExtendsTo Q (ofReport r) (ofReport r') :=
  fun _ _ related => h.imp id fun same => ⟨same, related⟩

namespace ExtendsTo

theorem refl (x : Run σ α) : ExtendsTo Eq x x :=
  fun _ _ same => same ▸ .inr ⟨rfl, rfl⟩

theorem map {x y : Run σ α} (h : ExtendsTo Q x y) (f : α → β) :
    ExtendsTo Q (f <$> x) (f <$> y) := by
  intro s s' related
  rw [map_apply, map_apply]
  refine (h s s' related).imp (fun limit => ?_) fun same => ⟨?_, same.2⟩
  · show (x s).1.result.map f = _
    rw [limit]
    rfl
  · show (x s).1.result.map f = (y s').1.result.map f
    rw [same.1]

theorem bind {x y : Run σ α} {f g : α → Run σ β} (h : ExtendsTo Q x y)
    (next : ∀ a, ExtendsTo Q (f a) (g a)) : ExtendsTo Q (x >>= f) (y >>= g) := by
  intro s s' related
  rcases h s s' related with limit | ⟨same, related⟩
  · exact .inl (bind_apply_of_error limit).1
  · cases result : (x s).1.result with
    | error fault =>
        rw [result] at same
        obtain ⟨ends, state⟩ := @bind_apply_of_error _ _ _ x f _ _ result
        obtain ⟨ends', state'⟩ := @bind_apply_of_error _ _ _ y g _ _ same.symm
        rw [ends, ends', state, state']
        exact .inr ⟨rfl, related⟩
    | ok a =>
        rw [result] at same
        obtain ⟨ends, state⟩ := @bind_apply_of_ok _ _ _ x f _ _ result
        obtain ⟨ends', state'⟩ := @bind_apply_of_ok _ _ _ y g _ _ same.symm
        rw [ends, ends', state, state']
        exact next a _ _ related

/-- The results of a run and of one that it extends to are the same, as far as they are
told from related states. -/
theorem start {x y : Run σ α} (h : ExtendsTo Q x y) {f : α × σ → β}
    (blind : ∀ a s s', Q s s' → f (a, s) = f (a, s')) {s s' : σ} (related : Q s s') :
    (f <$> x.start s).ExtendsTo (f <$> y.start s') := by
  change ((x s).1.result.map fun a => (a, (x s).2)).map f = .error .limit ∨
    ((x s).1.result.map fun a => (a, (x s).2)).map f =
      ((y s').1.result.map fun a => (a, (y s').2)).map f
  rcases h s s' related with limit | ⟨same, related⟩
  · rw [limit]
    exact .inl rfl
  · rw [← same]
    cases (x s).1.result with
    | error fault => exact .inr rfl
    | ok a => exact .inr (congrArg Except.ok (blind a _ _ related))

end ExtendsTo

theorem extendsTo_mapM {f g : α → Run σ β} {as : List α}
    (each : ∀ a ∈ as, ExtendsTo Q (f a) (g a)) : ExtendsTo Q (as.mapM f) (as.mapM g) := by
  induction as with
  | nil => exact extendsTo_pure _
  | cons a as ih =>
      obtain ⟨head, rest⟩ := List.forall_mem_cons.1 each
      rw [List.mapM_cons, List.mapM_cons]
      exact head.bind fun b => (ih rest).bind fun bs => extendsTo_pure _

end Run

/-! ## Outcomes -/

/-- With some limit a computation does not run into the limit, and it ends in this way. -/
def EndsWith (compute : Nat → Report α) (outcome : Except DefinitionError α) : Prop :=
  ∃ limit, (compute limit).result = outcome.mapError .definition

theorem mapError_definition_ne_limit (outcome : Except DefinitionError α) :
    outcome.mapError Fault.definition ≠ .error .limit := by
  cases outcome with
  | error e => exact fun h => nomatch h
  | ok a => exact fun h => nomatch h

theorem mapError_definition_inj {outcome outcome' : Except DefinitionError α}
    (h : outcome.mapError Fault.definition = outcome'.mapError .definition) :
    outcome = outcome' := by
  cases outcome <;> cases outcome' <;> cases h <;> rfl

variable {compute compute' : Nat → Report α} {outcome outcome' : Except DefinitionError α}

/-- If a computation extends to another one with all larger limits, and the other one to
itself, then the other one has no other outcome. -/
theorem endsWith_iff (self : ∀ limit limit', limit ≤ limit' →
      (compute' limit).ExtendsTo (compute' limit'))
    (extension : ∀ limit limit', limit ≤ limit' → (compute limit).ExtendsTo (compute' limit'))
    (ends : EndsWith compute outcome) : EndsWith compute' outcome' ↔ outcome' = outcome := by
  obtain ⟨limit, ended⟩ := ends
  have later : ∀ limit', limit ≤ limit' →
      (compute' limit').result = outcome.mapError .definition := by
    intro limit' le
    have same := (extension limit limit' le).eq (ended ▸ mapError_definition_ne_limit outcome)
    exact same.trans ended
  constructor
  · rintro ⟨limit', ended'⟩
    have same := (self limit' _ (Nat.le_max_right limit limit')).eq
      (ended' ▸ mapError_definition_ne_limit outcome')
    rw [later _ (Nat.le_max_left limit limit'), ended'] at same
    exact (mapError_definition_inj same).symm
  · rintro rfl
    exact ⟨limit, later limit (Nat.le_refl _)⟩

end DataShape
