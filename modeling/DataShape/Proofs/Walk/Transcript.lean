import DataShape.Proofs.Walk.Task

/-!
# Transcripts of walks

A *call* is a node that a visitor was asked about, with its answer.  `Walks` says
which results and which calls a task can have, whoever answers: the order of the
calls, the place of each node, and how the answers make up the result.  `Answers`
says that a visitor gives the answers of the calls, one after the other.

Every walk that gives a result has a transcript, the calls of a `Walks` that the
visitor `Answers` (`Walks.of_gives`).  There is only one for a state to start from,
also for two visitors as long as they `Agree` (`Walks.unique`).  So a limit that is
too small can end a walk and has no other influence.

A *traced* visitor answers like the given one and keeps the transcript in its
state.

A kept node whose legs can be walked again on their results can be walked again as a
whole (`Walks.again_of_legs`), so two walks of one place are compared leg by leg.
-/

namespace DataShape

/-- A node that was visited, and the answer. -/
abbrev Call : Type := Node × Visit

/-- A task with its result and its calls. -/
structure Leg where
  task : Task
  result : Value
  calls : List Call

/-- A task can have a result through calls. -/
inductive Walks (table : Table) : Task → Value → List Call → Prop
  /-- Nothing is declared: the one node is the whole task. -/
  | undeclared {path : Path} {optional : Bool} {v : Value} {answer : Visit} :
      Walks table ⟨path, optional, none, v⟩ (answer.on v)
        [(⟨path, none, v, ⟨false, false⟩⟩, answer)]
  /-- A named type is replaced by its body. -/
  | named {path : Path} {optional : Bool} {s body : Schema} {name : String} {v w : Value}
      {calls : List Call} :
      table.resolve s = .ok (.named name body) →
      Walks table ⟨path, optional, some body, v⟩ w calls →
      Walks table ⟨path, optional, some s, v⟩ w calls
  /-- Everything else is visited before what is below the answer. -/
  | visit {path : Path} {optional : Bool} {s t : Schema} {v : Value} {answer : Visit}
      {legs : List Leg} :
      table.resolve s = .ok t → (∀ name body, t ≠ .named name body) →
      legs.map Leg.task = tasksBelow path t (answer.on v) →
      (∀ leg ∈ legs, Walks table leg.task leg.result leg.calls) →
      Walks table ⟨path, optional, some s, v⟩ (assemble t (answer.on v) (legs.map Leg.result))
        ((⟨path, some t, v, ⟨t.nullable, optional⟩⟩, answer) :: legs.flatMap Leg.calls)

variable {σ : Type}

/-- A visitor gives the answers of the calls, one after the other. -/
def Answers (visit : Visitor σ) : σ → List Call → σ → Prop
  | st, [], st' => st = st'
  | st, (node, answer) :: calls, st' =>
      ∃ mid, (visit node).Gives st answer mid ∧ Answers visit mid calls st'

/-- Answer like a visitor, and keep the calls. -/
def traced (visit : Visitor σ) : Visitor (σ × List Call) := fun node (st, calls) =>
  let (report, st') := visit node st
  match report.result with
  | .ok answer => (report, (st', calls ++ [(node, answer)]))
  | .error _ => (report, (st', calls))

variable {table : Table} {visit : Visitor σ}

/-! ## Answers -/

theorem answers_append_iff {calls calls' : List Call} {st st' : σ} :
    Answers visit st (calls ++ calls') st' ↔
      ∃ mid, Answers visit st calls mid ∧ Answers visit mid calls' st' := by
  induction calls generalizing st with
  | nil => simp [Answers]
  | cons call calls ih =>
      simp only [List.cons_append, Answers, ih]
      constructor
      · rintro ⟨mid, gives, mid', first, rest⟩
        exact ⟨mid', ⟨mid, gives, first⟩, rest⟩
      · rintro ⟨mid', ⟨mid, gives, first⟩, rest⟩
        exact ⟨mid, gives, mid', first, rest⟩

/-- Every call was answered in some state. -/
theorem exists_gives_of_answers {calls : List Call} {st st' : σ}
    (answers : Answers visit st calls st') {call : Call} (mem : call ∈ calls) :
    ∃ before after, (visit call.1).Gives before call.2 after := by
  induction calls generalizing st with
  | nil => cases mem
  | cons first calls ih =>
      obtain ⟨mid, gives, answers⟩ := answers
      rcases List.mem_cons.1 mem with rfl | mem
      · exact ⟨st, mid, gives⟩
      · exact ih answers mem

theorem gives_traced_iff {node : Node} {answer : Visit} {st st' : σ} {calls calls' : List Call} :
    (traced visit node).Gives (st, calls) answer (st', calls') ↔
      (visit node).Gives st answer st' ∧ calls' = calls ++ [(node, answer)] := by
  simp only [Run.Gives, traced]
  cases result : (visit node st).1.result with
  | error fault => simp [result]
  | ok a =>
      simp only [result, Except.ok.injEq, Prod.mk.injEq]
      constructor
      · rintro ⟨rfl, rfl, rfl⟩
        exact ⟨⟨rfl, rfl⟩, rfl⟩
      · rintro ⟨⟨rfl, rfl⟩, rfl⟩
        exact ⟨rfl, rfl, rfl⟩

/-- A traced visitor keeps the calls that it answers. -/
theorem answers_traced_iff {calls kept kept' : List Call} {st st' : σ} :
    Answers (traced visit) (st, kept) calls (st', kept') ↔
      Answers visit st calls st' ∧ kept' = kept ++ calls := by
  induction calls generalizing st kept with
  | nil => simp [Answers, eq_comm]
  | cons call calls ih =>
      simp only [Answers, Prod.exists, gives_traced_iff]
      constructor
      · rintro ⟨mid, _, ⟨gives, rfl⟩, rest⟩
        obtain ⟨answers, rfl⟩ := ih.1 rest
        exact ⟨⟨mid, gives, answers⟩, by simp⟩
      · rintro ⟨⟨mid, gives, rest⟩, rfl⟩
        exact ⟨mid, _, ⟨gives, rfl⟩, ih.2 ⟨rest, by simp⟩⟩

/-! ## One step of a walk -/

/-- What a step of a walk can do: replace a named type, or visit a node and do
the tasks below it. -/
theorem gives_walkAt_succ_iff {limit : Nat} {path : Path} {optional : Bool} {s : Schema}
    {v w : Value} {st st' : σ} :
    (walkAt table visit (limit + 1) path optional s v).Gives st w st' ↔
      (∃ name body, table.resolve s = .ok (.named name body) ∧
        (walkAt table visit limit path optional body v).Gives st w st') ∨
      (∃ t, table.resolve s = .ok t ∧ (∀ name body, t ≠ .named name body) ∧
        ∃ answer mid, (visit ⟨path, some t, v, ⟨t.nullable, optional⟩⟩).Gives st answer mid ∧
          ∃ results, ((tasksBelow path t (answer.on v)).mapM
              (perform visit (walkAt table visit limit))).Gives mid results st' ∧
            assemble t (answer.on v) results = w) := by
  rw [walkAt]
  simp only [Run.gives_bind_iff, Run.gives_ofDefinition_iff]
  constructor
  · rintro ⟨t, _, ⟨found, rfl⟩, h⟩
    by_cases named : ∃ name body, t = .named name body
    · obtain ⟨name, body, rfl⟩ := named
      exact .inl ⟨name, body, found, h⟩
    · refine .inr ⟨t, found, fun name body eq => named ⟨name, body, eq⟩, ?_⟩
      cases t with
      | named name body => exact absurd ⟨name, body, rfl⟩ named
      | _ => simpa [descend_eq] using h
  · rintro (⟨name, body, found, h⟩ | ⟨t, found, named, h⟩)
    · exact ⟨_, st, ⟨found, rfl⟩, h⟩
    · refine ⟨t, st, ⟨found, rfl⟩, ?_⟩
      cases t with
      | named name body => exact absurd rfl (named name body)
      | _ => simpa [descend_eq] using h

theorem gives_visitUndeclared_iff {path : Path} {v w : Value} {st st' : σ} :
    (visitUndeclared visit path v).Gives st w st' ↔
      ∃ answer, (visit ⟨path, none, v, ⟨false, false⟩⟩).Gives st answer st' ∧
        answer.on v = w := by
  simp [visitUndeclared]

/-! ## Every walk has a transcript -/

/-- If every task has a transcript, then so do several of them, done in order. -/
theorem exists_legs {f : Task → Run σ Value} {tasks : List Task}
    (each : ∀ task ∈ tasks, ∀ st w st', (f task).Gives st w st' →
      ∃ calls, Walks table task w calls ∧ Answers visit st calls st')
    {results : List Value} {st st' : σ} (gives : (tasks.mapM f).Gives st results st') :
    ∃ legs : List Leg, legs.map Leg.task = tasks ∧ legs.map Leg.result = results ∧
      (∀ leg ∈ legs, Walks table leg.task leg.result leg.calls) ∧
      Answers visit st (legs.flatMap Leg.calls) st' := by
  induction tasks generalizing results st with
  | nil =>
      simp only [List.mapM_nil, Run.gives_pure_iff] at gives
      obtain ⟨rfl, rfl⟩ := gives
      exact ⟨[], rfl, rfl, by simp, rfl⟩
  | cons task tasks ih =>
      simp only [List.mapM_cons, Run.gives_bind_iff, Run.gives_pure_iff] at gives
      obtain ⟨w, mid, first, rest, _, gives, rfl, rfl⟩ := gives
      obtain ⟨calls, walks, answers⟩ := each task (by simp) _ _ _ first
      obtain ⟨legs, rfl, rfl, walks', answers'⟩ :=
        ih (fun task mem => each task (by simp [mem])) gives
      refine ⟨⟨task, w, calls⟩ :: legs, rfl, rfl, ?_, answers_append_iff.2 ⟨mid, answers, answers'⟩⟩
      exact List.forall_mem_cons.2 ⟨walks, walks'⟩

/-- A walk that gives a result has a transcript. -/
theorem Walks.of_gives {limit : Nat} {path : Path} {optional : Bool} {s : Schema} {v w : Value}
    {st st' : σ} (gives : (walkAt table visit limit path optional s v).Gives st w st') :
    ∃ calls, Walks table ⟨path, optional, some s, v⟩ w calls ∧ Answers visit st calls st' := by
  induction limit generalizing path optional s v w st st' with
  | zero => exact absurd gives Run.gives_fail_iff
  | succ limit ih =>
      rcases gives_walkAt_succ_iff.1 gives with
        ⟨name, body, found, gives⟩ | ⟨t, found, named, answer, mid, asked, results, done, rfl⟩
      · obtain ⟨calls, walks, answers⟩ := ih gives
        exact ⟨calls, .named found walks, answers⟩
      · have each : ∀ task ∈ tasksBelow path t (answer.on v), ∀ st w st',
            (perform visit (walkAt table visit limit) task).Gives st w st' →
              ∃ calls, Walks table task w calls ∧ Answers visit st calls st' := by
          rintro ⟨path, optional, _ | s, v⟩ - st w st' gives
          · obtain ⟨answer, asked, rfl⟩ := gives_visitUndeclared_iff.1 gives
            exact ⟨_, .undeclared, st', asked, rfl⟩
          · exact ih gives
        obtain ⟨legs, tasks, rfl, walks, answers⟩ := exists_legs each done
        exact ⟨_, .visit found named tasks walks, mid, asked, answers⟩

/-! ## There is only one transcript -/

/-- Where both of two visitors answer, they answer the same. -/
def Agree (visit visit' : Visitor σ) : Prop :=
  ∀ node st answer answer' mid mid', (visit node).Gives st answer mid →
    (visit' node).Gives st answer' mid' → answer = answer' ∧ mid = mid'

theorem Agree.refl (visit : Visitor σ) : Agree visit visit :=
  fun _ _ _ _ _ _ gives gives' => gives.unique gives'

variable {visit' : Visitor σ}

/-- If the transcript of each leg is the only one, then so are all of them together. -/
theorem legs_unique {legs legs' : List Leg}
    (each : ∀ leg ∈ legs, ∀ st mid w calls mid', Answers visit st leg.calls mid →
      Walks table leg.task w calls → Answers visit' st calls mid' →
        leg.result = w ∧ leg.calls = calls ∧ mid = mid')
    (tasks : legs.map Leg.task = legs'.map Leg.task)
    (walks : ∀ leg ∈ legs', Walks table leg.task leg.result leg.calls) {st st₁ st₂ : σ}
    (answers₁ : Answers visit st (legs.flatMap Leg.calls) st₁)
    (answers₂ : Answers visit' st (legs'.flatMap Leg.calls) st₂) : legs = legs' ∧ st₁ = st₂ := by
  induction legs generalizing legs' st with
  | nil =>
      obtain rfl : legs' = [] := by simpa using tasks
      exact ⟨rfl, answers₁.symm.trans answers₂⟩
  | cons leg legs ih =>
      cases legs' with
      | nil => cases tasks
      | cons leg' legs' =>
          obtain ⟨same, tasks⟩ := List.cons.inj tasks
          obtain ⟨mid, first₁, rest₁⟩ := answers_append_iff.1 answers₁
          obtain ⟨mid', first₂, rest₂⟩ := answers_append_iff.1 answers₂
          obtain ⟨result, calls, rfl⟩ := each leg (by simp) _ _ _ _ _ first₁
            (same ▸ walks leg' (by simp)) first₂
          obtain ⟨rfl, rfl⟩ := ih (fun leg mem => each leg (by simp [mem])) tasks
            (fun leg mem => walks leg (by simp [mem])) rest₁ rest₂
          cases leg
          cases leg'
          cases same
          cases result
          cases calls
          exact ⟨rfl, rfl⟩

/-- Two visitors that agree have one transcript of a task from one state. -/
theorem Walks.unique (agree : Agree visit visit') {task : Task} {w₁ w₂ : Value}
    {calls₁ calls₂ : List Call} {st st₁ st₂ : σ}
    (walks₁ : Walks table task w₁ calls₁) (answers₁ : Answers visit st calls₁ st₁)
    (walks₂ : Walks table task w₂ calls₂) (answers₂ : Answers visit' st calls₂ st₂) :
    w₁ = w₂ ∧ calls₁ = calls₂ ∧ st₁ = st₂ := by
  induction walks₁ generalizing w₂ calls₂ st st₁ st₂ with
  | undeclared =>
      cases walks₂ with
      | undeclared =>
          obtain ⟨_, asked₁, rfl⟩ := answers₁
          obtain ⟨_, asked₂, rfl⟩ := answers₂
          obtain ⟨rfl, rfl⟩ := agree _ _ _ _ _ _ asked₁ asked₂
          exact ⟨rfl, rfl, rfl⟩
  | named found _ ih =>
      cases walks₂ with
      | named found' walks₂ =>
          cases found.symm.trans found'
          exact ih answers₁ walks₂ answers₂
      | visit found' named =>
          cases found.symm.trans found'
          exact absurd rfl (named _ _)
  | visit found named tasks _ ih =>
      cases walks₂ with
      | named found' =>
          cases found.symm.trans found'
          exact absurd rfl (named _ _)
      | visit found' _ tasks' walks₂ =>
          cases found.symm.trans found'
          obtain ⟨mid, asked₁, rest₁⟩ := answers₁
          obtain ⟨mid', asked₂, rest₂⟩ := answers₂
          obtain ⟨rfl, rfl⟩ := agree _ _ _ _ _ _ asked₁ asked₂
          obtain ⟨rfl, rfl⟩ := legs_unique
            (fun leg mem _ _ _ _ _ first walks second => ih leg mem first walks second)
            (tasks.trans tasks'.symm) walks₂ rest₁ rest₂
          exact ⟨rfl, rfl, rfl⟩

/-- Keep every value. -/
def keeper : Visitor Unit := fun _ => pure .keep

theorem answers_keeper {calls : List Call} (kept : ∀ call ∈ calls, call.2 = .keep) :
    Answers keeper () calls () := by
  induction calls with
  | nil => rfl
  | cons call calls ih =>
      obtain ⟨keep, kept⟩ := List.forall_mem_cons.1 kept
      exact ⟨(), by rw [keep]; simp [keeper], ih kept⟩

/-- A transcript in which every value is kept gives back the value. -/
theorem Walks.eq_of_kept {task : Task} {w : Value} {calls : List Call}
    (walks : Walks table task w calls) (kept : ∀ call ∈ calls, call.2 = .keep) :
    w = task.value := by
  induction walks with
  | undeclared =>
      obtain rfl := kept _ (List.mem_singleton.2 rfl)
      rfl
  | named _ _ ih => exact ih kept
  | @visit path _ _ t v _ legs _ _ tasks _ ih =>
      obtain ⟨rfl, below⟩ := List.forall_mem_cons.1 kept
      have tasks : legs.map Leg.task = tasksBelow path t v := tasks
      have results : legs.map Leg.result = (tasksBelow path t v).map Task.value := by
        rw [← tasks, List.map_map]
        exact List.map_congr_left fun leg mem => ih leg mem fun call inside =>
          below call (List.mem_flatMap.2 ⟨leg, mem, inside⟩)
      rw [show Visit.keep.on v = v from rfl, results, assemble_tasksBelow]

/-- There is only one transcript of a task in which every value is kept. -/
theorem Walks.unique_of_kept {task : Task} {w₁ w₂ : Value} {calls₁ calls₂ : List Call}
    (walks₁ : Walks table task w₁ calls₁) (kept₁ : ∀ call ∈ calls₁, call.2 = .keep)
    (walks₂ : Walks table task w₂ calls₂) (kept₂ : ∀ call ∈ calls₂, call.2 = .keep) :
    calls₁ = calls₂ :=
  (walks₁.unique (.refl keeper) (answers_keeper kept₁) walks₂ (answers_keeper kept₂)).2.1

/-! ## Walking again -/

section Legs

variable {path : Path} {optional : Bool} {s t : Schema} {v w : Value} {legs : List Leg}

/-- A visited node with the legs below it, where the result and the calls are
given up to equality. -/
theorem Walks.of_legs (answer : Visit) (legs : List Leg) {calls : List Call}
    (found : table.resolve s = .ok t) (named : ∀ name body, t ≠ .named name body)
    (tasks : legs.map Leg.task = tasksBelow path t (answer.on v))
    (walks : ∀ leg ∈ legs, Walks table leg.task leg.result leg.calls)
    (result : assemble t (answer.on v) (legs.map Leg.result) = w)
    (all : (⟨path, some t, v, ⟨t.nullable, optional⟩⟩, answer) :: legs.flatMap Leg.calls = calls) :
    Walks table ⟨path, optional, some s, v⟩ w calls := by
  subst result
  subst all
  exact .visit found named tasks walks

/-- A walk that keeps the value of a leaf is over. -/
theorem Walks.keep_leaf {options : Options} (found : table.resolve s = .ok t)
    (named : ∀ name body, t ≠ .named name body)
    (leaf : Node.Leaf ⟨path, some t, v, options⟩) (u : Value) :
    Walks table ⟨path, optional, some s, u⟩ u
      [(⟨path, some t, u, ⟨t.nullable, optional⟩⟩, .keep)] :=
  .of_legs .keep [] found named (leaf.tasksBelow_eq_nil path u).symm (by simp)
    (leaf.assemble_eq u []) rfl

/-- There is one result for each task. -/
theorem length_results (tasks : legs.map Leg.task = tasksBelow path t v) :
    (legs.map Leg.result).length = (tasksBelow path t v).length := by
  rw [← tasks, List.length_map, List.length_map]

/-- The tasks below an assembled value, as they come from the legs. -/
theorem tasksBelow_assemble_legs
    (tasks : legs.map Leg.task = tasksBelow path t v) :
    tasksBelow path t (assemble t v (legs.map Leg.result)) =
      legs.map fun leg => leg.task.put leg.result := by
  rw [tasksBelow_assemble path t v _ (length_results tasks), ← tasks, List.zipWith_map,
    List.zipWith_self]

/-- If each leg can be walked again on its result, then so can a kept node on the
value that the results make up. -/
theorem Walks.again_of_legs {after : Leg → List Call}
    (found : table.resolve s = .ok t) (named : ∀ name body, t ≠ .named name body)
    (tasks : legs.map Leg.task = tasksBelow path t v)
    (walks : ∀ leg ∈ legs, Walks table (leg.task.put leg.result) leg.result (after leg)) :
    Walks table ⟨path, optional, some s, assemble t v (legs.map Leg.result)⟩
      (assemble t v (legs.map Leg.result))
      ((⟨path, some t, assemble t v (legs.map Leg.result), ⟨t.nullable, optional⟩⟩, .keep) ::
        legs.flatMap after) := by
  refine .of_legs .keep
    (legs.map fun leg => ⟨leg.task.put leg.result, leg.result, after leg⟩)
    found named ?_ ?_ ?_ ?_
  · rw [List.map_map]
    exact (tasksBelow_assemble_legs tasks).symm
  · exact List.forall_mem_map.2 walks
  · have results : legs.map Leg.result = (tasksBelow path t
        (assemble t v (legs.map Leg.result))).map Task.value :=
      (map_value_tasksBelow_assemble path t v _ (length_results tasks)).symm
    rw [List.map_map]
    exact (congrArg (assemble t _) results).trans (assemble_tasksBelow path t _)
  · rw [List.flatMap_map]

end Legs

end DataShape
