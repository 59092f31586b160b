import DataShape.Proofs.Events
import DataShape.Proofs.Walk.Transcript

/-!
# Calls and events

To trace a visitor changes nothing that is reported.  If the visitor tells of each call
by one event of some sort or by none, and a walk itself tells nothing of this sort, then
the events of this sort are told by the calls, in their order (`records_walk`).

`Records` compares the traced run with the other one.  It passes through all ways to
compose runs, so a walk is an induction on its limit.
-/

namespace DataShape

variable {σ α β : Type} {p : Event → Bool} {told : Call → Option Event}

namespace Run

/-- The first run reports what the second one reports and ends in its state.  It also
keeps calls, and the events of the sort `p` are those that these calls tell. -/
def Records (p : Event → Bool) (told : Call → Option Event) (x : Run (σ × List Call) α)
    (y : Run σ α) : Prop :=
  ∀ st calls, (x (st, calls)).1 = (y st).1 ∧ ∃ kept,
    (x (st, calls)).2 = ((y st).2, calls ++ kept) ∧
      kept.filterMap told = (y st).1.events.filter p

theorem records_pure (a : α) : Records p told (pure a) (pure a : Run σ α) :=
  fun _ _ => ⟨rfl, [], by simp, rfl⟩

theorem records_fail (fault : Fault) : Records p told (fail fault) (fail fault : Run σ α) :=
  fun _ _ => ⟨rfl, [], by simp, rfl⟩

theorem records_ofDefinition (result : Except DefinitionError α) :
    Records p told (ofDefinition result) (ofDefinition result : Run σ α) :=
  fun _ _ => ⟨rfl, [], by simp [ofDefinition], rfl⟩

/-- An event of another sort is told without a call. -/
theorem records_emit {event : Event} (other : p event = false) :
    Records p told (emit event) (emit event : Run σ Unit) :=
  fun _ _ => ⟨rfl, [], by simp, by simp [other]⟩

namespace Records

theorem map {x : Run (σ × List Call) α} {y : Run σ α} (h : Records p told x y) (f : α → β) :
    Records p told (f <$> x) (f <$> y) := by
  intro st calls
  obtain ⟨same, kept, ends, events⟩ := h st calls
  refine ⟨?_, kept, ends, events⟩
  rw [map_apply, map_apply, same]

theorem bind {x : Run (σ × List Call) α} {y : Run σ α} {f : α → Run (σ × List Call) β}
    {g : α → Run σ β} (h : Records p told x y) (next : ∀ a, Records p told (f a) (g a)) :
    Records p told (x >>= f) (y >>= g) := by
  intro st calls
  obtain ⟨same, kept, ends, events⟩ := h st calls
  rw [bind_apply, bind_apply, andThen, andThen]
  generalize x (st, calls) = ended at same ends ⊢
  generalize y st = ended' at same ends events ⊢
  obtain ⟨report, _⟩ := ended
  obtain ⟨⟨result, first⟩, st'⟩ := ended'
  cases same
  cases ends
  cases result with
  | error fault => exact ⟨rfl, kept, rfl, events⟩
  | ok a =>
      obtain ⟨same, kept', ends', events'⟩ := next a st' (calls ++ kept)
      refine ⟨?_, kept ++ kept', ?_, ?_⟩
      · simp only [same]
      · simp only [ends', List.append_assoc]
      · rw [List.filterMap_append, events, events']
        exact (List.filter_append ..).symm

end Records

theorem records_mapM {f : α → Run (σ × List Call) β} {g : α → Run σ β}
    (each : ∀ a, Records p told (f a) (g a)) (as : List α) :
    Records p told (as.mapM f) (as.mapM g) := by
  induction as with
  | nil => exact records_pure _
  | cons a as ih =>
      rw [List.mapM_cons, List.mapM_cons]
      exact (each a).bind fun _ => ih.bind fun _ => records_pure _

end Run

/-! ## Walks -/

variable {table : Table} {visit : Visitor σ}

/-- A traced visitor records, if the events of the sort `p` at a node are what the call
tells. -/
theorem records_traced {node : Node} (tells : ∀ st, (visit node st).1.events.filter p =
      match (visit node st).1.result with
      | .ok answer => (told (node, answer)).toList
      | .error _ => []) :
    Run.Records p told (traced visit node) (visit node) := by
  intro st calls
  have tells := tells st
  simp only [traced]
  cases result : (visit node st).1.result with
  | error fault =>
      rw [result] at tells
      exact ⟨rfl, [], by simp, tells.symm⟩
  | ok answer =>
      rw [result] at tells
      refine ⟨rfl, [(node, answer)], rfl, Eq.trans ?_ tells.symm⟩
      show [(node, answer)].filterMap told = (told (node, answer)).toList
      rw [List.filterMap_cons]
      cases told (node, answer) <;> rfl

/-- A walk of the traced visitor records the walk of the visitor. -/
theorem records_walkAt (visiting : ∀ e : Event, e.Visiting → p e = false)
    (each : ∀ node, Run.Records p told (traced visit node) (visit node)) (limit : Nat)
    (path : Path) (optional : Bool) (s : Schema) (v : Value) :
    Run.Records p told (walkAt table (traced visit) limit path optional s v)
      (walkAt table visit limit path optional s v) := by
  induction limit generalizing path optional s v with
  | zero => exact Run.records_fail _
  | succ limit ih =>
      have step : ∀ task, Run.Records p told
          (perform (traced visit) (walkAt table (traced visit) limit) task)
          (perform visit (walkAt table visit limit) task) := by
        intro task
        rw [perform, perform]
        cases task.schema with
        | some s => exact ih _ _ _ _
        | none =>
            exact (Run.records_emit (visiting (.visitingUndeclared _) trivial)).bind fun _ =>
              (each _).map _
      have below : ∀ path t v, Run.Records p told
          (descend (traced visit) (walkAt table (traced visit) limit) path t v)
          (descend visit (walkAt table visit limit) path t v) := by
        intro path t v
        rw [descend_eq, descend_eq]
        exact (Run.records_mapM step _).map _
      rw [walkAt, walkAt]
      refine (Run.records_ofDefinition _).bind fun target => ?_
      split
      · exact ih _ _ _ _
      · exact (Run.records_emit (visiting (.visiting _ _) trivial)).bind fun _ =>
          (each _).bind fun _ => below _ _ _

/-- A walk from an empty transcript reports what the walk of the visitor reports, and the
events of the sort `p` are what its calls tell. -/
theorem records_walk (visiting : ∀ e : Event, e.Visiting → p e = false)
    (each : ∀ node, Run.Records p told (traced visit node) (visit node)) {limit : Nat}
    {s : Schema} {v w : Value} {st st' : σ} {calls : List Call}
    (gives : (walk table (traced visit) limit s v).Gives (st, []) w (st', calls)) :
    (walk table visit limit s v).Gives st w st' ∧
      (walk table visit limit s v st).1.events.filter p = calls.filterMap told := by
  obtain ⟨same, kept, ends, events⟩ := records_walkAt visiting each limit .root false s v st []
  obtain ⟨result, ended⟩ := gives
  obtain ⟨rfl, rfl⟩ := Prod.mk.inj (ended.symm.trans ends)
  exact ⟨⟨same ▸ result, rfl⟩, events.symm⟩

end DataShape
