import DataShape.Guard
import DataShape.Proofs.Check.Prune
import DataShape.Proofs.Events
import DataShape.Proofs.Value.Json

/-!
# What guards let pass

A guard looks for the failures of the JSON form of a returned value, in which a float
that is not finite is null.  What it answers, and what it warns about, depends on
these failures and its mode alone (`Guard.check_eq`).

A strict guard lets a value pass that has no failure.  A lenient guard lets a value
pass that has no failure but undeclared keys, and these are the values that have no
failure at all once they are pruned.  So to check leniently is to check the pruned
value strictly (`Guard.lenient_is_strict_on_pruned`).
-/

namespace DataShape

/-- The warnings among events, in order. -/
def warnings (events : List Event) : List Event := events.filter fun e => e.level == .warn

/-- To look for failures warns about nothing. -/
theorem Resolved.warnings_failures (r : Resolved) (v : Value) :
    warnings (r.failures v).events = [] := by
  refine List.filter_eq_nil_iff.2 fun e mem => ?_
  have visiting := r.tells_failures v e mem
  cases e with
  | visiting | visitingUndeclared => exact Bool.false_ne_true
  | _ => cases visiting

namespace Guard

variable {s : Schema} {g : Guard} {found : List Failure}

/-- A guard is built on an accepted schema, and is strict at first. -/
theorem ofSchema_eq_ok_iff :
    ofSchema s = .ok g ↔ s.resolve.result = .ok g.resolved ∧ g.schema = s ∧ g.mode = .strict := by
  obtain ⟨schema, resolved, mode⟩ := g
  rw [ofSchema]
  cases s.resolve.result <;> simp [eq_comm, and_left_comm]

/-- Whether a guard lets a value with these failures pass, with warnings or without. -/
def passes (g : Guard) (found : List Failure) : Bool := found.isEmpty || g.tolerates found

theorem passes_strict : (g.withMode .strict).passes found = found.isEmpty := Bool.or_false _

theorem passes_lenient :
    (g.withMode .lenient).passes found = (found.filter Failure.fatal).isEmpty := by
  cases found with
  | nil => rfl
  | cons f found =>
      rw [Bool.eq_iff_iff, List.isEmpty_iff, List.filter_eq_nil_iff]
      simp [passes, tolerates, withMode, Failure.fatal]

/-- A guard looks at the failures of the JSON form, returns the value or all of them,
and adds warnings only if it lets some of them pass. -/
theorem check_eq (returned : Value)
    (collected : (g.resolved.failures returned.nullified).result = .ok found) :
    g.check returned = bif g.passes found
      then (.ok returned, (g.resolved.failures returned.nullified).events ++
        found.map Event.tolerated)
      else (.error (.badReturnValue found),
        (g.resolved.failures returned.nullified).events) := by
  have json : Value.ofJson returned.toJson = returned.nullified := Value.ofJson_toJson_eq returned
  have encoded : Encode.encode returned = .ok returned.toJson := rfl
  simp only [check, encoded, json, collected, passes]
  cases found with
  | nil => simp
  | cons f found => cases g.tolerates (f :: found) <;> simp

section Checked

variable {returned : Value}
  (collected : (g.resolved.failures returned.nullified).result = .ok found)

include collected

theorem check_eq_ok_iff : (g.check returned).1 = .ok returned ↔ g.passes found = true := by
  rw [check_eq returned collected]
  cases g.passes found <;> simp

theorem check_eq_error_iff :
    (g.check returned).1 = .error (.badReturnValue found) ↔ g.passes found = false := by
  rw [check_eq returned collected]
  cases g.passes found <;> simp

/-- A guard warns about the failures that it lets pass, once about each of them. -/
theorem warnings_check_eq :
    warnings (g.check returned).2 = bif g.passes found then found.map Event.tolerated else [] := by
  have quiet := g.resolved.warnings_failures returned.nullified
  have loud : warnings (found.map Event.tolerated) = found.map Event.tolerated :=
    List.filter_eq_self.2 (List.forall_mem_map.2 fun _ _ => rfl)
  rw [check_eq returned collected]
  cases g.passes found with
  | true => exact (List.filter_append ..).trans (congrArg₂ _ quiet loud)
  | false => exact quiet

end Checked

/-- To check leniently is to check the pruned value strictly.  The returned value comes
out as it was, or all failures of its JSON form do.  Each failure that is let pass is
warned about once, in order, and nothing else is. -/
theorem lenient_is_strict_on_pruned (built : ofSchema s = .ok g) (returned : Value) :
    ∃ found, (s.failures returned.nullified).result = .ok found ∧
      (s.failures (s.prune returned.nullified)).result = .ok (found.filter Failure.fatal) ∧
      (∀ mode, ((g.withMode mode).check returned).1 = .ok returned ∨
        ((g.withMode mode).check returned).1 = .error (.badReturnValue found)) ∧
      (((g.withMode .strict).check returned).1 = .ok returned ↔
        (s.isValid returned.nullified).result = .ok true) ∧
      (((g.withMode .lenient).check returned).1 = .ok returned ↔
        (s.isValid (s.prune returned.nullified)).result = .ok true) ∧
      (((g.withMode .lenient).check returned).1 = .ok returned →
        warnings ((g.withMode .lenient).check returned).2 = found.map Event.tolerated) ∧
      ∀ mode, (mode = .strict ∨ ((g.withMode mode).check returned).1 ≠ .ok returned) →
        warnings ((g.withMode mode).check returned).2 = [] := by
  obtain ⟨accepted, -, -⟩ := ofSchema_eq_ok_iff.1 built
  obtain ⟨calls, -, -, collected⟩ := g.resolved.exists_failures returned.nullified
  generalize (calls.flatMap fun call => raised g.resolved.table call.1) = found at collected
  have pruned := s.failures_prune accepted collected
  have here : ∀ mode, ((g.withMode mode).resolved.failures returned.nullified).result =
    .ok found := fun _ => collected
  refine ⟨found, s.failures_eq_ok accepted collected, s.failures_eq_ok accepted pruned,
    fun mode => ?_, ?_, ?_, fun passed => ?_, fun mode quiet => ?_⟩
  · rw [check_eq_ok_iff (here mode), check_eq_error_iff (here mode)]
    exact Bool.eq_false_or_eq_true _
  · rw [check_eq_ok_iff (here .strict), passes_strict, s.isValid_eq_ok accepted collected,
      Except.ok.injEq]
  · rw [check_eq_ok_iff (here .lenient), passes_lenient, s.isValid_eq_ok accepted pruned,
      Except.ok.injEq]
  · rw [warnings_check_eq (here .lenient), (check_eq_ok_iff (here .lenient)).1 passed, cond_true]
  · rw [warnings_check_eq (here mode)]
    rcases quiet with rfl | refused
    · rw [passes_strict]
      cases found <;> rfl
    · rw [Bool.eq_false_iff.2 fun passed => refused ((check_eq_ok_iff (here mode)).2 passed),
        cond_false]

/-! ### A parcel -/

/-- A parcel has a number, may go to a city or nowhere, and may hold things with a
weight. -/
def parcel : Schema := .object
  [⟨"id", false, .primitive ⟨.int, false⟩⟩,
    ⟨"to", true, .choice [.literal .null,
      .object [⟨"city", false, .primitive ⟨.str, false⟩⟩] none]⟩,
    ⟨"things", true, .list (.object [⟨"weight", false, .primitive ⟨.int, false⟩⟩] none)⟩] none

/-- The guard of parcels. -/
def parcelGuard : Guard := ⟨parcel, ⟨[], parcel, rfl⟩, .strict⟩

/-- A parcel with a note on it and a color on the thing in it. -/
def notedParcel : Value := .dict [("note", .str "fragile"), ("id", .int 7),
  ("things", .list [.dict [("color", .str "red"), ("weight", .int 2)]])]

/-- A parcel to a city with a street, which its choice does not know. -/
def streetParcel : Value := .dict [("id", .int 7),
  ("to", .dict [("city", .str "Berlin"), ("street", .str "Allee")])]

/-- In lenient mode the first parcel passes with two warnings, and the second does not
pass: nothing is pruned inside a choice. -/
theorem lenient_parcels : ofSchema parcel = .ok parcelGuard ∧
    ((parcelGuard.withMode .lenient).check notedParcel).1 = .ok notedParcel ∧
    warnings ((parcelGuard.withMode .lenient).check notedParcel).2 =
      [.tolerated ⟨.root, .unexpectedProperty "note"⟩,
        .tolerated ⟨((Path.root.key "things").index 0), .unexpectedProperty "color"⟩] ∧
    ((parcelGuard.withMode .lenient).check streetParcel).1 ≠ .ok streetParcel ∧
    warnings ((parcelGuard.withMode .lenient).check streetParcel).2 = [] := by
  have built : ofSchema parcel = .ok parcelGuard := rfl
  obtain ⟨found, collected, -, -, -, lenient, loud, -⟩ :=
    lenient_is_strict_on_pruned built notedParcel
  obtain ⟨-, -, -, -, -, lenient', -, quiet⟩ := lenient_is_strict_on_pruned built streetParcel
  have passed := lenient.2 rfl
  have refused : ((parcelGuard.withMode .lenient).check streetParcel).1 ≠ .ok streetParcel := by
    intro passed
    have valid := lenient'.1 passed
    cases valid
  cases collected
  exact ⟨built, passed, loud passed, refused, quiet .lenient (.inr refused)⟩

end Guard

end DataShape
