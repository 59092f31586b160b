import DataShape.Check.Validate
import DataShape.Proofs.Runs
import DataShape.Proofs.Walk.Task

/-!
# Which events are told

A run *tells* only events of some sort if all its events are of that sort, whatever
state it starts from and whether it gives a result or not.  A composed run tells
only what its parts tell, and a walk tells what its visitor tells and that it visits
nodes (`tells_walk`).

To look for failures is to tell about visits and nothing else
(`Resolved.tells_failures`).  So it never warns.
-/

namespace DataShape

variable {σ α β : Type} {P : Event → Prop}

namespace Report

/-- All events of a report are of one sort. -/
def Tells (P : Event → Prop) (r : Report α) : Prop := ∀ e ∈ r.events, P e

theorem tells_pure (a : α) : (pure a : Report α).Tells P := fun _ mem => nomatch mem

theorem tells_ofExcept (result : Except Fault α) : (ofExcept result).Tells P :=
  fun _ mem => nomatch mem

theorem tells_map_iff {f : α → β} {r : Report α} : (f <$> r).Tells P ↔ r.Tells P := Iff.rfl

theorem Tells.bind {r : Report α} {f : α → Report β} (h : r.Tells P) (next : ∀ a, (f a).Tells P) :
    (r >>= f).Tells P := by
  change (andThen r f).Tells P
  unfold andThen
  intro e mem
  cases result : r.result with
  | error fault => exact h e (by simpa [result] using mem)
  | ok a =>
      rw [result] at mem
      exact (List.mem_append.1 mem).elim (h e) (next a e)

end Report

namespace Run

/-- All events of a run are of one sort. -/
def Tells (P : Event → Prop) (x : Run σ α) : Prop := ∀ s, (x s).1.Tells P

theorem tells_pure (a : α) : (pure a : Run σ α).Tells P := fun _ _ mem => nomatch mem

theorem tells_fail (fault : Fault) : (fail fault : Run σ α).Tells P := fun _ _ mem => nomatch mem

theorem tells_update (f : σ → σ) : (update f).Tells P := fun _ _ mem => nomatch mem

theorem tells_ofDefinition (result : Except DefinitionError α) :
    (ofDefinition result : Run σ α).Tells P := fun _ _ mem => nomatch mem

theorem tells_emit {event : Event} (h : P event) : (emit event : Run σ Unit).Tells P :=
  fun _ _ mem => List.mem_singleton.1 mem ▸ h

theorem tells_ofReport {r : Report α} (h : r.Tells P) : (ofReport r : Run σ α).Tells P :=
  fun _ => h

theorem tells_start {x : Run σ α} (h : x.Tells P) (s : σ) : (x.start s).Tells P := h s

theorem Tells.bind {x : Run σ α} {f : α → Run σ β} (h : x.Tells P) (next : ∀ a, (f a).Tells P) :
    (x >>= f).Tells P := by
  intro s e
  have first := h s
  rw [bind_apply, andThen]
  generalize x s = ended at first ⊢
  obtain ⟨⟨result, events⟩, s'⟩ := ended
  cases result with
  | error fault => exact first e
  | ok a => exact fun mem => (List.mem_append.1 mem).elim (first e) (next a s' e)

theorem Tells.map {x : Run σ α} (h : x.Tells P) (f : α → β) : (f <$> x).Tells P := h

theorem tells_mapM {f : α → Run σ β} (each : ∀ a, (f a).Tells P) (as : List α) :
    (as.mapM f).Tells P := by
  induction as with
  | nil => exact tells_pure _
  | cons a as ih =>
      rw [List.mapM_cons]
      exact (each a).bind fun _ => ih.bind fun _ => tells_pure _

end Run

/-! ## Walks -/

/-- Events about a visit. -/
def Event.Visiting : Event → Prop
  | .visiting _ _ | .visitingUndeclared _ => True
  | _ => False

variable {table : Table} {visit : Visitor σ} {judge : Schema → Value → Report Bool}

/-- A walk tells what its visitor tells, and about visits. -/
theorem tells_walkAt (visiting : ∀ e : Event, e.Visiting → P e) (each : ∀ node, (visit node).Tells P)
    (limit : Nat) (path : Path) (optional : Bool) (s : Schema) (v : Value) :
    (walkAt table visit limit path optional s v).Tells P := by
  induction limit generalizing path optional s v with
  | zero => exact Run.tells_fail _
  | succ limit ih =>
      have step : ∀ task, (perform visit (walkAt table visit limit) task).Tells P := by
        intro task
        rw [perform]
        cases task.schema with
        | some s => exact ih _ _ _ _
        | none =>
            exact (Run.tells_emit (visiting (.visitingUndeclared _) trivial)).bind fun _ =>
              (each _).map _
      have below : ∀ path t v, (descend visit (walkAt table visit limit) path t v).Tells P := by
        intro path t v
        rw [descend_eq]
        exact (Run.tells_mapM step _).map _
      rw [walkAt]
      refine (Run.tells_ofDefinition _).bind fun target => ?_
      split
      · exact ih _ _ _ _
      · exact (Run.tells_emit (visiting (.visiting _ _) trivial)).bind fun _ =>
          (each _).bind fun _ => below _ _ _

theorem tells_walk (visiting : ∀ e : Event, e.Visiting → P e) (each : ∀ node, (visit node).Tells P)
    (limit : Nat) (s : Schema) (v : Value) : (walk table visit limit s v).Tells P :=
  tells_walkAt visiting each limit .root false s v

/-! ## Validation -/

theorem tells_anyMet (each : ∀ s v, (judge s v).Tells P) (v : Value) (alternatives : List Schema) :
    (anyMet judge v alternatives).Tells P := by
  induction alternatives with
  | nil => exact Report.tells_pure _
  | cons s rest ih =>
      refine (each s v).bind fun met => ?_
      cases met with
      | true => exact Report.tells_pure _
      | false => exact ih

theorem tells_validator (each : ∀ s v, (judge s v).Tells P) (node : Node) :
    (validator judge node).Tells P := by
  have recorded : ∀ found, ((do record node.path found; return .keep) :
      Run (List Failure) Visit).Tells P :=
    fun _ => (Run.tells_update _).bind fun _ => Run.tells_pure _
  rw [validator]
  split
  · exact Run.tells_pure _
  · refine (Run.tells_ofReport (tells_anyMet each _ _)).bind fun met => ?_
    cases met with
    | true => exact Run.tells_pure _
    | false => exact recorded _
  · exact recorded _

/-- The walks for the alternatives of a choice tell about visits. -/
theorem tells_satisfies (limit : Nat) (s : Schema) (v : Value) :
    (satisfies table limit s v).Tells Event.Visiting := by
  induction limit generalizing s v with
  | zero => exact Report.tells_ofExcept _
  | succ limit ih =>
      exact Report.tells_map_iff.2
        (Run.tells_start (tells_walk (fun _ h => h) (tells_validator ih) _ s v) [])

/-- To look for failures tells about visits. -/
theorem Resolved.tells_failures (r : Resolved) (v : Value) :
    (r.failures v).Tells Event.Visiting :=
  Report.tells_map_iff.2 (Run.tells_start
    (tells_walk (fun _ h => h) (tells_validator (tells_satisfies _)) _ r.root v) [])

end DataShape
