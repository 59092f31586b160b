import DataShape.Proofs.Check.Raised

/-!
# Validation decides conformance

A choice starts walks of its own.  What they answer is right, by induction on
their limit (`judges_satisfies`), and they do answer whenever their limit fits
(`exists_satisfies`).  So all failures of a value are those that the nodes of one
walk raise, with every limit that is large enough (`Resolved.exists_collectFailures`).

An accepted schema finds a value valid exactly if it accepts the value as it is
written, before any name was taken out of it (`isValid_decides_accepts`).
-/

namespace DataShape

variable {table : Table} {judge : Schema → Value → Report Bool} {s : Schema} {v : Value}
  {bound limit : Nat}

/-! ## The judge of a choice -/

/-- A walk of the validator keeps everything, settles each choice, and finds what its
nodes raise. -/
theorem of_gives_walk_validator (right : Judges table judge) {w : Value} {found : List Failure}
    (gives : (walk table (validator judge) limit s v).Gives [] w found) :
    ∃ calls, Walks table ⟨.root, false, some s, v⟩ w calls ∧
      (∀ call ∈ calls, call.2 = .keep ∧ Settles judge call.1) ∧
      found = calls.flatMap fun call => raised table call.1 := by
  obtain ⟨calls, walks, answers⟩ := Walks.of_gives gives
  obtain ⟨kept, rfl⟩ := of_answers_validator right answers
  refine ⟨calls, walks, fun call mem => ⟨kept call mem, ?_⟩, rfl⟩
  obtain ⟨_, _, asked⟩ := exists_gives_of_answers answers mem
  exact ((gives_validator_iff right).1 asked).1

/-- What a walk for an alternative answers is right. -/
theorem judges_satisfies (table : Table) (limit : Nat) : Judges table (satisfies table limit) := by
  induction limit with
  | zero =>
      intro s v b answered
      cases answered
  | succ limit ih =>
      intro s v b answered
      rw [satisfies, Report.result_map_eq_ok_iff] at answered
      obtain ⟨⟨w, failures⟩, started, rfl⟩ := answered
      obtain ⟨calls, walks, settles, rfl⟩ :=
        of_gives_walk_validator ih (Run.start_eq_ok_iff.1 started)
      rw [List.isEmpty_iff, (walks.met_iff fun call mem => (settles call mem).1).2, met_some_iff]

/-- Some alternative is met, or none is, if the judge knows about each of them. -/
theorem exists_anyMet {alternatives : List Schema}
    (each : ∀ s ∈ alternatives, ∃ b, (judge s v).result = .ok b) :
    ∃ b, (anyMet judge v alternatives).result = .ok b := by
  induction alternatives with
  | nil => exact ⟨false, rfl⟩
  | cons s rest ih =>
      obtain ⟨met, judged⟩ := each s (by simp)
      obtain ⟨b, answered⟩ := ih fun s mem => each s (by simp [mem])
      cases met with
      | true => exact ⟨true, by simp [anyMet, judged]⟩
      | false => exact ⟨b, by simp [anyMet, judged, answered]⟩

/-- The validator is tame where the choice is settled. -/
theorem tameAt_validator (right : Judges table judge) {node : Node} (settled : Settles judge node) :
    TameAt (validator judge) node :=
  fun _ => ⟨.keep, _, (gives_validator_iff right).2 ⟨settled, rfl, rfl⟩, Nat.le_refl _⟩

/-- Within a limit that fits, a walk for an alternative answers. -/
theorem exists_satisfies (bodies : table.AllGrounded bound)
    (fits : table.Fits bound limit s v) : ∃ b, (satisfies table limit s v).result = .ok b := by
  induction limit generalizing s v with
  | zero =>
      obtain ⟨_, impossible⟩ := fits.pos
      omega
  | succ limit ih =>
      have tame : ∀ node : Node, node.Fits table bound (limit + 1) →
          TameAt (validator (satisfies table limit)) node := by
        intro node inside
        refine tameAt_validator (judges_satisfies table limit) fun alternatives declared => ?_
        exact exists_anyMet fun s mem => ih ((inside _ declared).ahead mem mem)
      obtain ⟨w, failures, gives⟩ :=
        exists_gives_walkAt bodies tame (Nat.le_refl _) fits .root false []
      refine ⟨failures.isEmpty, ?_⟩
      rw [satisfies, Report.result_map_eq_ok_iff]
      exact ⟨(w, failures), Run.start_eq_ok_iff.2 gives, rfl⟩

/-! ## The failures of a value -/

namespace Resolved

/-- What a walk from the root has to do. -/
def task (r : Resolved) (v : Value) : Task := ⟨.root, false, some r.root, v⟩

/-- The validator is tame at every node that its limit fits. -/
theorem tameAt_validator (r : Resolved) {node : Node} (inside : node.Fits r.table r.bound limit) :
    TameAt (validator (satisfies r.table limit)) node := by
  refine DataShape.tameAt_validator (judges_satisfies r.table limit) fun _ declared => ?_
  have wider := (inside _ declared).mono (Nat.le_succ limit)
  exact exists_anyMet fun s mem => exists_satisfies r.grounded_table (wider.ahead mem mem)

/-- With every limit that is large enough, the failures of a value are those that
the validator adds at the nodes of one walk. -/
theorem exists_collectFailures (r : Resolved) (v : Value) :
    ∃ calls, Walks r.table (r.task v) v calls ∧ (∀ call ∈ calls, call.2 = .keep) ∧
      ∀ limit, walkLimit r.table r.root v ≤ limit →
        (collectFailures r.table limit r.root v).Gives [] v
          (calls.flatMap fun call => raised r.table call.1) ∧
        ∀ call ∈ calls, Settles (satisfies r.table limit) call.1 := by
  obtain ⟨w, _, gives⟩ := r.exists_gives (Nat.le_refl _) (fun _ => r.tameAt_validator) []
  obtain ⟨calls, walks, settles, rfl⟩ := of_gives_walk_validator (judges_satisfies _ _) gives
  have kept : ∀ call ∈ calls, call.2 = .keep := fun call mem => (settles call mem).1
  obtain rfl := walks.eq_of_kept kept
  refine ⟨calls, walks, kept, fun limit le => ?_⟩
  obtain ⟨w', _, gives'⟩ := r.exists_gives le (fun _ => r.tameAt_validator) []
  obtain ⟨calls', walks', settles', rfl⟩ := of_gives_walk_validator (judges_satisfies _ _) gives'
  have kept' : ∀ call ∈ calls', call.2 = .keep := fun call mem => (settles' call mem).1
  obtain rfl := walks'.eq_of_kept kept'
  obtain rfl := walks.unique_of_kept kept walks' kept'
  exact ⟨gives', fun call mem => (settles' call mem).2⟩

theorem failures_eq_ok_iff (r : Resolved) {found : List Failure} :
    (r.failures v).result = .ok found ↔
      ∃ w, (collectFailures r.table (walkLimit r.table r.root v) r.root v).Gives [] w found := by
  rw [failures, Report.result_map_eq_ok_iff]
  simp [Run.start_eq_ok_iff]

/-- The failures of a value are those that the nodes of one walk raise. -/
theorem exists_failures (r : Resolved) (v : Value) :
    ∃ calls, Walks r.table (r.task v) v calls ∧ (∀ call ∈ calls, call.2 = .keep) ∧
      (r.failures v).result = .ok (calls.flatMap fun call => raised r.table call.1) := by
  obtain ⟨calls, walks, kept, collected⟩ := r.exists_collectFailures v
  exact ⟨calls, walks, kept, r.failures_eq_ok_iff.2 ⟨v, (collected _ (Nat.le_refl _)).1⟩⟩

theorem isValid_eq (r : Resolved) {found : List Failure}
    (collected : (r.failures v).result = .ok found) : (r.isValid v).result = .ok found.isEmpty := by
  rw [isValid, Report.result_map, collected]
  rfl

theorem validate_eq (r : Resolved) {found : List Failure}
    (collected : (r.failures v).result = .ok found) :
    (r.validate v).result = .ok (found.map Failure.message) := by
  rw [validate, Report.result_map, collected]
  rfl

/-- A value is valid if it meets the root. -/
theorem isValid_eq_ok_true_iff (r : Resolved) :
    (r.isValid v).result = .ok true ↔ r.table.Meets r.root v := by
  obtain ⟨calls, walks, kept, collected⟩ := r.exists_failures v
  rw [r.isValid_eq collected, Except.ok.injEq, List.isEmpty_iff, (walks.met_iff kept).2, task,
    met_some_iff]

/-- A value is found valid or not, whichever it is. -/
theorem exists_isValid (r : Resolved) (v : Value) :
    ∃ valid, (r.isValid v).result = .ok valid ∧ (valid = true ↔ r.table.Meets r.root v) := by
  obtain ⟨_, -, -, collected⟩ := r.exists_failures v
  have judged := r.isValid_eq collected
  refine ⟨_, judged, ?_⟩
  rw [← isValid_eq_ok_true_iff, judged, Except.ok.injEq]

end Resolved

/-! ## Validity -/

namespace Schema

variable {r : Resolved} {found : List Failure}

/-- An accepted schema finds what its resolved schema finds. -/
theorem failures_eq_ok (accepted : s.resolve.result = .ok r)
    (collected : (r.failures v).result = .ok found) : (s.failures v).result = .ok found := by
  rw [failures, Report.result_bind_eq_ok_iff]
  exact ⟨r, accepted, collected⟩

theorem isValid_eq_ok (accepted : s.resolve.result = .ok r)
    (collected : (r.failures v).result = .ok found) :
    (s.isValid v).result = .ok found.isEmpty := by
  rw [isValid, Report.result_bind_eq_ok_iff]
  exact ⟨r, accepted, r.isValid_eq collected⟩

end Schema

/-- An accepted schema finds a value valid or not, and valid exactly if it accepts
the value.  Null is accepted by nullable primitives, choices and literals only. -/
theorem Schema.isValid_decides_accepts {r : Resolved} (accepted : s.resolve.result = .ok r)
    (v : Value) :
    (∃ b, (r.isValid v).result = .ok b ∧ (s.isValid v).result = .ok b ∧
      (b = true ↔ s.Accepts v)) ∧
    ∀ t, t.refusesNull = true → ¬ Conforms s.Defines t .null := by
  obtain ⟨distinct, table, root⟩ := resolve_eq_ok_iff.1 accepted
  obtain ⟨calls, walks, kept, collected⟩ := r.exists_collectFailures v
  have valid := r.isValid_eq (r.failures_eq_ok_iff.2 ⟨v, (collected _ (Nat.le_refl _)).1⟩)
  refine ⟨⟨_, valid, ?_, ?_⟩, fun t h => not_conforms_null h⟩
  · rw [isValid, Report.result_bind_eq_ok_iff]
    exact ⟨r, accepted, valid⟩
  · rw [List.isEmpty_iff, (walks.met_iff kept).2, Resolved.task, met_some_iff, table, root,
      accepts_iff_meets distinct]

/-! ### A chain of numbers -/

/-- Null, or a number and a chain. -/
def chainBody : Schema :=
  .choice [.literal .null, .object
    [⟨"head", false, .primitive ⟨.int, false⟩⟩, ⟨"tail", true, .reference "chain"⟩] none]

/-- The resolved schema of chains. -/
def chain : Resolved := ⟨[("chain", chainBody)], chainBody, rfl⟩

/-- Two numbers make a chain, and a text in place of the second one does not. -/
theorem chain_accepts :
    (Schema.named "chain" chainBody).Accepts
      (.dict [("head", .int 1), ("tail", .dict [("head", .int 2), ("tail", .null)])]) ∧
    ¬ (Schema.named "chain" chainBody).Accepts
      (.dict [("head", .int 1), ("tail", .dict [("head", .str "two"), ("tail", .null)])]) := by
  have accepted : (Schema.named "chain" chainBody).resolve.result = .ok chain := rfl
  constructor
  · obtain ⟨⟨b, answered, -, iff⟩, -⟩ := Schema.isValid_decides_accepts accepted
      (.dict [("head", .int 1), ("tail", .dict [("head", .int 2), ("tail", .null)])])
    exact iff.1 (Except.ok.inj answered).symm
  · obtain ⟨⟨b, answered, -, iff⟩, -⟩ := Schema.isValid_decides_accepts accepted
      (.dict [("head", .int 1), ("tail", .dict [("head", .str "two"), ("tail", .null)])])
    intro h
    exact Bool.false_ne_true ((Except.ok.inj answered).trans (iff.2 h))

end DataShape
