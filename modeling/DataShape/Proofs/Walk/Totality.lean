import DataShape.Proofs.Walk.Height
import DataShape.Proofs.Walk.Transcript

/-!
# Walks that end

A visitor is *tame* at a node if it answers there, whatever its state is, and if
the answer is not larger than the value.  A walk with a limit that fits only asks
about nodes that the limit fits too, so it gives a result whenever the visitor is
tame at these nodes (`exists_gives_walkAt`).

The result does not depend on the limit.  All limits from the one of `walkLimit`
on give the same (`Resolved.exists_gives_walk`).
-/

namespace DataShape

variable {σ : Type} {table : Table} {bound limit top : Nat} {visit : Visitor σ}

/-- A visitor answers at a node, and not with a larger value. -/
def TameAt (visit : Visitor σ) (node : Node) : Prop :=
  ∀ st, ∃ answer st', (visit node).Gives st answer st' ∧
    (answer.on node.value).size ≤ node.value.size

/-- To keep the calls is no reason to give up. -/
theorem TameAt.traced {node : Node} (tame : TameAt visit node) : TameAt (traced visit) node := by
  rintro ⟨st, calls⟩
  obtain ⟨answer, st', gives, size⟩ := tame st
  exact ⟨answer, (st', calls ++ [(node, answer)]), gives_traced_iff.2 ⟨gives, rfl⟩, size⟩

/-- A limit fits what is declared for a node. -/
def Node.Fits (table : Table) (bound limit : Nat) (node : Node) : Prop :=
  ∀ t, node.schema = some t → table.Fits bound limit t node.value

/-! ## One limit -/

/-- Several tasks give results if each of them does. -/
theorem exists_gives_mapM {α β : Type} {f : α → Run σ β} {as : List α}
    (each : ∀ a ∈ as, ∀ st, ∃ b st', (f a).Gives st b st') (st : σ) :
    ∃ bs st', (as.mapM f).Gives st bs st' := by
  induction as generalizing st with
  | nil => exact ⟨[], st, by simp⟩
  | cons a as ih =>
      obtain ⟨b, mid, first⟩ := each a (by simp) st
      obtain ⟨bs, st', rest⟩ := ih (fun a mem => each a (by simp [mem])) mid
      refine ⟨b :: bs, st', ?_⟩
      simp only [List.mapM_cons, Run.gives_bind_iff, Run.gives_pure_iff]
      exact ⟨b, mid, first, bs, st', rest, rfl, rfl⟩

/-- A walk with a limit that fits gives a result if the visitor is tame at all
nodes that a limit no smaller fits. -/
theorem exists_gives_walkAt (bodies : table.AllGrounded bound)
    (tame : ∀ node : Node, node.Fits table bound top → TameAt visit node) (le : limit ≤ top)
    {s : Schema} {v : Value} (fits : table.Fits bound limit s v) (path : Path)
    (optional : Bool) (st : σ) :
    ∃ w st', (walkAt table visit limit path optional s v).Gives st w st' := by
  induction limit generalizing s v path optional st with
  | zero =>
      obtain ⟨_, impossible⟩ := fits.pos
      omega
  | succ limit ih =>
      obtain ⟨t, found, fits⟩ := fits.resolve bodies
      by_cases named : ∃ name body, t = .named name body
      · obtain ⟨name, body, rfl⟩ := named
        obtain ⟨w, st', gives⟩ := ih (by omega)
          (fits.ahead (t := body) (by simp [Schema.children]) (by simp [Table.ahead]))
          path optional st
        exact ⟨w, st', gives_walkAt_succ_iff.2 (.inl ⟨name, body, found, gives⟩)⟩
      · have inside : Node.Fits table bound top ⟨path, some t, v, ⟨t.nullable, optional⟩⟩ :=
          fun _ eq => Option.some.inj eq ▸ fits.mono le
        obtain ⟨answer, mid, asked, smaller⟩ := tame _ inside st
        have each : ∀ task ∈ tasksBelow path t (answer.on v), ∀ st,
            ∃ w st', (perform visit (walkAt table visit limit) task).Gives st w st' := by
          rintro ⟨path, optional, schema, value⟩ mem st
          obtain ⟨lt, child⟩ := of_mem_tasksBelow mem
          cases schema with
          | none =>
              obtain ⟨answer, st', asked, -⟩ :=
                tame ⟨path, none, value, ⟨false, false⟩⟩ (by simp [Node.Fits]) st
              exact ⟨_, st', gives_visitUndeclared_iff.2 ⟨answer, asked, rfl⟩⟩
          | some u =>
              exact ih (by omega) (fits.below (child u rfl) (Nat.lt_of_lt_of_le lt smaller))
                path optional st
        obtain ⟨results, st', gives⟩ := exists_gives_mapM each mid
        refine ⟨_, st', gives_walkAt_succ_iff.2 (.inr ⟨t, found, ?_, answer, mid, asked, results,
          gives, rfl⟩)⟩
        exact fun name body eq => named ⟨name, body, eq⟩

/-! ## All limits -/

/-- Two visitors that agree give the same result, with any two limits. -/
theorem gives_walk_unique {visit' : Visitor σ} (agree : Agree visit visit') {limit' : Nat}
    {s : Schema} {v : Value} {st st₁ st₂ : σ} {w₁ w₂ : Value}
    (gives₁ : (walk table visit limit s v).Gives st w₁ st₁)
    (gives₂ : (walk table visit' limit' s v).Gives st w₂ st₂) : w₁ = w₂ ∧ st₁ = st₂ := by
  obtain ⟨calls₁, walks₁, answers₁⟩ := Walks.of_gives gives₁
  obtain ⟨calls₂, walks₂, answers₂⟩ := Walks.of_gives gives₂
  obtain ⟨rfl, -, rfl⟩ := walks₁.unique agree answers₁ walks₂ answers₂
  exact ⟨rfl, rfl⟩

namespace Resolved

variable {v : Value}

/-- A walk from the root gives a result if the visitor is tame at the nodes that
the limit fits. -/
theorem exists_gives (r : Resolved) (le : walkLimit r.table r.root v ≤ limit)
    (tame : ∀ node : Node, node.Fits r.table r.bound limit → TameAt visit node) (st : σ) :
    ∃ w st', (walk r.table visit limit r.root v).Gives st w st' :=
  exists_gives_walkAt r.grounded_table tame (Nat.le_refl _) ((r.fits_walkLimit v).mono le) _ _ st

/-- A visitor that is tame everywhere gives one result with all limits. -/
theorem exists_gives_walk (r : Resolved) (tame : ∀ node, TameAt visit node) (st : σ) :
    ∃ w st', ∀ limit, walkLimit r.table r.root v ≤ limit →
      (walk r.table visit limit r.root v).Gives st w st' := by
  obtain ⟨w, st', gives⟩ := r.exists_gives (Nat.le_refl _) (fun node _ => tame node) st
  refine ⟨w, st', fun limit le => ?_⟩
  obtain ⟨w', st'', gives'⟩ := r.exists_gives le (fun node _ => tame node) st
  obtain ⟨rfl, rfl⟩ := gives_walk_unique (.refl visit) gives gives'
  exact gives'

end Resolved

/-! ## The nodes of a walk -/

/-- A walk that starts at a grounded schema meets grounded schemas only. -/
theorem Walks.grounded (bodies : table.AllGrounded bound) {task : Task} {w : Value}
    {calls : List Call} (walks : Walks table task w calls)
    (start : ∀ s, task.schema = some s → table.Grounded bound s) :
    ∀ call ∈ calls, ∀ t, call.1.schema = some t → table.Grounded bound t := by
  have resolved : ∀ {s t : Schema}, table.Grounded bound s → table.resolve s = .ok t →
      table.Grounded bound t := by
    intro s t grounded found
    obtain ⟨u, found', grounded⟩ := grounded.resolve bodies
    cases found.symm.trans found'
    exact grounded
  induction walks with
  | undeclared => simp
  | named found _ ih =>
      have grounded := resolved (start _ rfl) found
      refine ih fun s declared => ?_
      obtain rfl := Option.some.inj declared
      exact grounded.part (.of_mem (by simp [Schema.children]))
  | @visit path optional s t v answer legs found _ tasks _ ih =>
      have grounded := resolved (start _ rfl) found
      refine List.forall_mem_cons.2 ⟨fun u declared => ?_, fun call mem => ?_⟩
      · exact Option.some.inj declared ▸ grounded
      · obtain ⟨leg, inside, mem⟩ := List.mem_flatMap.1 mem
        refine ih leg inside (fun u declared => ?_) call mem
        have below : leg.task ∈ tasksBelow path t (answer.on v) :=
          tasks ▸ List.mem_map_of_mem inside
        exact grounded.part (.of_mem ((of_mem_tasksBelow below).2 u declared))

end DataShape
