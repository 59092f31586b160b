import DataShape.Proofs.Check.Repair

/-!
# Coercion is idempotent

A node is *settled* if no coercer replaces its value, with whatever limit.  A node
that a coercer kept is settled, since the limit has no influence, and so is a node
with the value that a coercer put there, since nothing is wrong with that value any
more.  It does not matter which alternative of a choice the value was converted for.

So after one coercion all nodes are settled (`Walks.settled`).  A second coercion
visits the same places, keeps every value, and gives back what it was given.
-/

namespace DataShape

variable {table : Table} {s t : Schema} {v w u : Value} {path : Path} {options : Options}
  {node : Node} {limit : Nat} {st st' : Unit}

/-! ## Settled nodes -/

/-- No coercer replaces the value of the node. -/
def Settled (table : Table) (node : Node) : Prop :=
  ∀ limit answer st st', (coercer (convertAtChoice table limit) node).Gives st answer st' →
    answer = .keep

/-- What was kept once is always kept. -/
theorem settled_of_kept
    (kept : (coercer (convertAtChoice table limit) node).Gives st .keep st') :
    Settled table node := by
  intro limit' answer mid mid' gives
  have agree : Agree (coercer (convertAtChoice table limit))
      (coercer (convertAtChoice table limit')) :=
    agree_coercer fun _ _ _ _ first second => convertAtChoice_unique first second
  exact (agree node mid .keep answer st' mid' kept gives).1.symm

/-- A value that took the place of another one stays there. -/
theorem Repaired.settled (repaired : Repaired table node u) :
    Settled table { node with value := u } := by
  intro limit answer mid mid' gives
  rcases of_gives_coercer gives with kept | ⟨w, -, again⟩
  · exact kept
  · obtain ⟨m, -, raises⟩ := again.before
    rw [repaired.after] at raises
    cases raises

/-- Only at primitives and choices is anything converted. -/
theorem settled_of_conversion_eq_none
    (none : ∀ convertChoice, conversion convertChoice node = pure none) : Settled table node := by
  intro limit answer mid mid' gives
  obtain ⟨o, converted, rfl⟩ := gives_coercer_iff.1 gives
  rw [none] at converted
  cases converted
  rfl

/-- A settled node stays settled with other values in the places of its tasks. -/
theorem Settled.assemble (settled : Settled table ⟨path, some t, v, options⟩)
    (results : List Value) : Settled table ⟨path, some t, assemble t v results, options⟩ := by
  cases t with
  | primitive p => exact settled
  | choice alternatives => exact settled
  | _ => exact settled_of_conversion_eq_none fun _ => rfl

/-! ## The second walk -/

/-- The value of the node was settled, or it was repaired. -/
def Call.Settles (table : Table) (call : Call) : Prop :=
  (call.2 = .keep ∧ Settled table call.1) ∨ ∃ u, call.2 = .replace u ∧ Repaired table call.1 u

theorem call_settles_of_gives {answer : Visit}
    (gives : (coercer (convertAtChoice table limit) node).Gives st answer st') :
    Call.Settles table (node, answer) := by
  rcases of_gives_coercer gives with rfl | repaired
  · exact .inl ⟨rfl, settled_of_kept gives⟩
  · exact .inr repaired

/-- After a walk that keeps settled values and repairs the others, a walk that keeps
everything meets settled nodes only. -/
theorem Walks.settled {task : Task} {calls : List Call} (walks : Walks table task w calls)
    (settles : ∀ call ∈ calls, Call.Settles table call) :
    ∃ calls', Walks table (task.put w) w calls' ∧
      ∀ call ∈ calls', call.2 = .keep ∧ Settled table call.1 := by
  induction walks with
  | undeclared =>
      rcases settles _ (List.mem_singleton.2 rfl) with ⟨rfl, settled⟩ | ⟨u, -, repaired⟩
      · exact ⟨_, .undeclared, List.forall_mem_singleton.2 ⟨rfl, settled⟩⟩
      · obtain ⟨_, declared⟩ := repaired.isLeaf.exists_schema
        cases declared
  | named found _ ih =>
      obtain ⟨calls', walks, settled⟩ := ih settles
      exact ⟨calls', .named found walks, settled⟩
  | @visit path optional s t v answer legs found named tasks _ ih =>
      obtain ⟨first, below⟩ := List.forall_mem_cons.1 settles
      rcases first with ⟨rfl, settled⟩ | ⟨u, rfl, repaired⟩
      · have each : ∀ leg ∈ legs, ∃ calls',
            Walks table (leg.task.put leg.result) leg.result calls' ∧
              ∀ call ∈ calls', call.2 = .keep ∧ Settled table call.1 :=
          fun leg mem => ih leg mem fun call inside =>
            below call (List.mem_flatMap.2 ⟨leg, mem, inside⟩)
        choose! after walks settledBelow using each
        refine ⟨_, .again_of_legs found named tasks walks, ?_⟩
        refine List.forall_mem_cons.2 ⟨⟨rfl, settled.assemble _⟩, fun call mem => ?_⟩
        obtain ⟨leg, inside, mem⟩ := List.mem_flatMap.1 mem
        exact settledBelow leg inside call mem
      · -- Nothing is below a repaired node, so the new value is its whole result.
        have none : legs = [] := by
          simpa [repaired.isLeaf.tasksBelow_eq_nil] using tasks
        subst none
        rw [List.map_nil, repaired.isLeaf.assemble_eq]
        exact ⟨_, .keep_leaf found named repaired.isLeaf _,
          List.forall_mem_singleton.2 ⟨rfl, repaired.settled⟩⟩

/-! ## Idempotence -/

open Classical in
/-- Keep the values of settled nodes, and give up at any other node. -/
noncomputable def settledKeeper (table : Table) : Visitor Unit := fun node =>
  if Settled table node then pure .keep else Run.fail .limit

theorem answers_settledKeeper {calls : List Call}
    (settled : ∀ call ∈ calls, call.2 = .keep ∧ Settled table call.1) :
    Answers (settledKeeper table) () calls () := by
  induction calls with
  | nil => rfl
  | cons call calls ih =>
      obtain ⟨⟨keep, first⟩, settled⟩ := List.forall_mem_cons.1 settled
      exact ⟨(), by simp [settledKeeper, first, keep], ih settled⟩

/-- A coercer that meets a settled node keeps its value. -/
theorem agree_settledKeeper (table : Table) (limit : Nat) :
    Agree (settledKeeper table) (coercer (convertAtChoice table limit)) := by
  intro node st answer answer' mid mid' gives gives'
  by_cases settled : Settled table node
  · obtain ⟨rfl, -⟩ : .keep = answer ∧ st = mid := by simpa [settledKeeper, settled] using gives
    exact ⟨(settled _ _ _ _ gives').symm, rfl⟩
  · simp [settledKeeper, settled] at gives

namespace Resolved

theorem Coerces.walks {r : Resolved} {calls : List Call} (coerces : r.Coerces v w calls) :
    Walks r.table (r.task v) w calls ∧
      Answers (coercer (convertAtChoice r.table (walkLimit r.table r.root v))) () calls () := by
  obtain ⟨_, walks, answers⟩ := Walks.of_gives coerces
  obtain ⟨answers, rfl⟩ := answers_traced_iff.1 answers
  exact ⟨walks, answers⟩

/-- Each answer of a coercion tells the conversion of its node. -/
theorem Coerces.exists_conversion {r : Resolved} {calls : List Call} (coerces : r.Coerces v w calls)
    {answer : Visit} (mem : (node, answer) ∈ calls) :
    ∃ o, (conversion (convertAtChoice r.table (walkLimit r.table r.root v)) node).result = .ok o ∧
      o.elim .keep .replace = answer := by
  obtain ⟨_, _, asked⟩ := exists_gives_of_answers coerces.walks.2 mem
  exact gives_coercer_iff.1 asked

/-- Every value has a coercion, and coercing that again keeps the value of every
node.  So the result is the same value, also if the schema is resolved anew each time. -/
theorem coercion_idempotent (r : Resolved) (v : Value) :
    ∃ w, (r.coerce v).result = .ok w ∧ (r.coerce w).result = .ok w ∧
      (∃ calls, r.Coerces w w calls ∧ ∀ call ∈ calls, call.2 = .keep) ∧
      ∀ s : Schema, s.resolve.result = .ok r →
        (s.coerce v).result = .ok w ∧ (s.coerce w).result = .ok w := by
  obtain ⟨w, calls, coerces, coerced, -⟩ := r.exists_coerces v
  obtain ⟨w', again, coercesAgain, coercedAgain, -⟩ := r.exists_coerces w
  obtain ⟨walks, answers⟩ := coerces.walks
  obtain ⟨walksAgain, answersAgain⟩ := coercesAgain.walks
  have settles : ∀ call ∈ calls, Call.Settles r.table call := by
    intro call mem
    obtain ⟨_, _, asked⟩ := exists_gives_of_answers answers mem
    exact call_settles_of_gives asked
  obtain ⟨calls', walks', settled⟩ := walks.settled settles
  obtain ⟨rfl, rfl, -⟩ := walks'.unique (agree_settledKeeper r.table _)
    (answers_settledKeeper settled) walksAgain answersAgain
  have accepted : ∀ (s : Schema) (u : Value), s.resolve.result = .ok r →
      (r.coerce u).result = .ok w → (s.coerce u).result = .ok w := by
    intro s u accepted coerced
    rw [Schema.coerce, Report.result_bind_eq_ok_iff]
    exact ⟨r, accepted, coerced⟩
  exact ⟨w, coerced, coercedAgain, ⟨_, coercesAgain, fun call mem => (settled call mem).1⟩,
    fun s resolved => ⟨accepted s v resolved coerced, accepted s w resolved coercedAgain⟩⟩

end Resolved

end DataShape
