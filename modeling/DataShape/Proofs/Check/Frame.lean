import DataShape.Proofs.Check.Alternatives
import DataShape.Proofs.Check.Local
import DataShape.Proofs.Names.Acceptance
import DataShape.Proofs.Walk.Places

/-!
# Coercion changes nothing but scalars

What the coercer replaces is a scalar at a primitive or at a choice, and what it puts in its
place is a scalar of another kind (`Converted`).  So nothing is below a replaced node, and
all nodes stand in the old value and in the coercion.  Both have the same shape.

The places where they differ can be read off the calls.  A place that was not replaced is
alike in both values, and a replaced one differs, as there is another kind of scalar there.

The events can be read off the calls, too.  For a replaced node the coercer tells of the
conversion.  Looking for alternatives that a value meets tells about visits only.
-/

namespace DataShape

open Value (At)

/-- A scalar of another kind takes the place of a scalar. -/
structure Converted (node : Node) (u : Value) : Prop extends Swapped node u where
  kind_ne : node.value.kind ≠ u.kind

/-- What is told of a call for debugging: a conversion, if the value was replaced. -/
def Call.told : Call → Option Event
  | (_, .keep) => none
  | (node, .replace u) => some (.coerced node.path node.value u)

/-- Whether an event is for debugging. -/
def Event.debugs (e : Event) : Bool := decide (e.level = .debug)

/-- What stays as it is below a node, whatever it is.  These are entries that nothing
describes, values at literals, null and containers at choices, and the items behind the
last element of a tuple. -/
inductive Node.Untouched (node : Node) : Path → Value → Prop
  | undeclared : node.schema = none → node.Untouched node.path node.value
  | literal {expected : Value} : node.schema = some (.literal expected) →
      node.Untouched node.path node.value
  | choice {alternatives : List Schema} : node.schema = some (.choice alternatives) →
      node.value.isScalar = false → node.Untouched node.path node.value
  | surplus {elements : List Schema} {items : List Value} {item : Value} {i : Nat} :
      node.schema = some (.tuple elements) → node.value = .list items → elements.length ≤ i →
      items[i]? = some item → node.Untouched (node.path.index i) item

variable {table : Table} {s : Schema} {v w u : Value} {as : List Schema} {node : Node}
  {limit : Nat}

/-! ## What is converted -/

/-- Scalars are converted to scalars of another kind. -/
theorem Kind.scalars_of_convert? {kind : Kind} (converted : kind.convert? v = some u) :
    v.isScalar = true ∧ u.isScalar = true ∧ v.kind ≠ u.kind := by
  obtain ⟨refused, -, accepted⟩ := convert?_eq_some converted
  refine ⟨?_, ?_, fun same => ?_⟩
  · unfold convert? at converted
    cases v with
    | null | list | dict =>
        rw [refused] at converted
        cases kind <;> cases converted
    | _ => rfl
  · cases kind <;> cases u <;> first | rfl | cases accepted
  · rw [accepts_iff.2 (same.trans (accepts_iff.1 accepted))] at refused
    cases refused

theorem Schema.scalars_of_convert? (converted : s.convert? v = some u) :
    v.isScalar = true ∧ u.isScalar = true ∧ v.kind ≠ u.kind := by
  cases s with
  | primitive p => exact Kind.scalars_of_convert? converted
  | _ => cases converted

/-- Whatever the coercer replaces is converted. -/
theorem Resolved.Coerces.converted {r : Resolved} {calls : List Call}
    (coerces : r.Coerces v w calls) (mem : (node, .replace u) ∈ calls) : Converted node u := by
  obtain ⟨o, converted, answered⟩ := coerces.exists_conversion mem
  obtain rfl := eq_some_of_elim answered
  obtain ⟨path, schema, v, options⟩ := node
  cases schema with
  | none => cases converted
  | some s =>
      cases s with
      | primitive p =>
          obtain ⟨before, after, kind_ne⟩ := Kind.scalars_of_convert? (Except.ok.inj converted)
          exact ⟨⟨.inl ⟨p, rfl⟩, before, after⟩, kind_ne⟩
      | choice as =>
          obtain ⟨flat, -, chosen⟩ := coerces.exists_flattens mem rfl
          obtain ⟨s, -, offered⟩ := exists_convert?_of_choose (eq_some_of_elim chosen.symm)
          obtain ⟨before, after, kind_ne⟩ := Schema.scalars_of_convert? offered
          exact ⟨⟨.inr ⟨as, rfl⟩, before, after⟩, kind_ne⟩
      | _ => cases converted

/-! ## What is told -/

theorem tells_firstConversion {P : Event → Prop} {convert : Schema → Report (Option Value)}
    (each : ∀ s, (convert s).Tells P) (as : List Schema) :
    (firstConversion convert as).Tells P := by
  induction as with
  | nil => exact Report.tells_pure _
  | cons s as ih =>
      refine (each s).bind fun offer => ?_
      cases offer with
      | some u => exact Report.tells_pure _
      | none => exact ih

/-- To look for the conversion at a choice tells about visits. -/
theorem tells_convertAtChoice (limit : Nat) (as : List Schema) (v : Value) :
    (convertAtChoice table limit as v).Tells Event.Visiting := by
  induction limit generalizing as with
  | zero => exact Report.tells_ofExcept _
  | succ limit ih =>
      rw [convertAtChoice_succ]
      refine (tells_anyMet (tells_satisfies limit) v as).bind fun met => ?_
      cases met with
      | true => exact Report.tells_pure _
      | false =>
          refine tells_firstConversion (fun s => ?_) as
          refine (Report.tells_ofExcept _).bind fun t => ?_
          cases t with
          | choice nested => exact ih nested
          | _ => exact Report.tells_pure _

theorem Event.Visiting.not_debugs {e : Event} (visiting : e.Visiting) : e.debugs = false := by
  cases e with
  | visiting | visitingUndeclared => rfl
  | _ => cases visiting

theorem coercer_eq (convertChoice : List Schema → Value → Report (Option Value)) (node : Node) :
    coercer convertChoice node = (do
      match ← Run.ofReport (conversion convertChoice node) with
      | some value => do
          Run.emit (.coerced node.path node.value value)
          return .replace value
      | none => return .keep) := by
  obtain ⟨path, schema, v, options⟩ := node
  cases schema with
  | none => rfl
  | some s => cases s <;> rfl

theorem tells_conversion (limit : Nat) (node : Node) :
    (conversion (convertAtChoice table limit) node).Tells Event.Visiting := by
  rw [conversion]
  split
  · exact Report.tells_pure _
  · exact tells_convertAtChoice _ _ _
  · exact Report.tells_pure _

/-- A coercer that records its calls tells of the conversions in them. -/
theorem records_coercer (limit : Nat) (node : Node) :
    Run.Records Event.debugs Call.told (traced (coercer (convertAtChoice table limit)) node)
      (coercer (convertAtChoice table limit) node) := by
  have visiting : (conversion (convertAtChoice table limit) node).Tells Event.Visiting :=
    tells_conversion limit node
  refine records_traced fun st => ?_
  rw [coercer_eq]
  generalize conversion (convertAtChoice table limit) node = report at visiting
  obtain ⟨result, events⟩ := report
  have silent : events.filter Event.debugs = [] :=
    List.filter_eq_nil_iff.2 fun e mem debugs =>
      Bool.false_ne_true ((visiting e mem).not_debugs.symm.trans debugs)
  cases result with
  | error fault => exact silent
  | ok o =>
      cases o with
      | none =>
          show (events ++ []).filter Event.debugs = []
          rw [List.append_nil, silent]
      | some u =>
          show (events ++ [Event.coerced node.path node.value u]).filter Event.debugs =
            [Event.coerced node.path node.value u]
          rw [List.filter_append, silent]
          rfl

/-! ## What stays as it is -/

namespace Node.Untouched

variable {p : Path}

theorem not_swapped (h : node.Untouched p u) {u' : Value} : ¬ Swapped node u' := by
  intro swapped
  cases h with
  | choice _ scalar => exact Bool.false_ne_true (scalar.symm.trans swapped.before)
  | undeclared declared | literal declared | surplus declared =>
      rcases swapped.leaf with ⟨_, leaf⟩ | ⟨_, leaf⟩
      · cases declared.symm.trans leaf
      · cases declared.symm.trans leaf

theorem at_old (h : node.Untouched p u) : At node.path node.value p u := by
  cases h with
  | surplus _ value _ found =>
      rw [value]
      exact .inside (Value.mem_places_list_iff.2 ⟨_, found, rfl⟩) .here
  | _ => exact .here

/-- A visit that keeps the value leaves it in place, whatever becomes of the tasks below. -/
theorem at_rebuilt (h : node.Untouched p u) {results : List Value} (length : ∀ t,
      node.schema = some t → results.length = (tasksBelow node.path t node.value).length) :
    At node.path (Call.rebuilt (node, .keep) results) p u := by
  obtain ⟨path, schema, v, options⟩ := node
  cases h with
  | undeclared declared | literal declared | choice declared =>
      cases declared
      exact .here
  | @surplus elements items item i declared value le found =>
      cases declared
      cases value
      have length := length _ rfl
      simp only [tasksBelow, List.length_map, List.length_zipIdx, List.length_zip] at length
      refine .inside (c := u) (Value.mem_places_list_iff.2 ⟨i, ?_, rfl⟩) .here
      rw [getElem?_append_drop length le, found]

end Node.Untouched

/-! ## Where a value and its coercion differ -/

section Places

variable {task : Task} {calls : List Call}
  (converted : ∀ node u, (node, .replace u) ∈ calls → Converted node u)

include converted

/-- Every place of a distinct value is a place of the result, and something else stands there
if and only if it was replaced. -/
theorem Walks.exists_differs_iff (walks : Walks table task w calls)
    (distinct : task.value.Distinct) {p : Path} {a : Value} (stands : At task.path task.value p a) :
    ∃ b, At task.path w p b ∧ (∀ b', At task.path w p b' → b' = b) ∧
      (¬ a.Alike b ↔ ∃ node u, (node, .replace u) ∈ calls ∧ node.path = p) := by
  have swapped : ∀ node u, (node, .replace u) ∈ calls → Swapped node u :=
    fun node u mem => (converted node u mem).toSwapped
  have only : ∀ b, At task.path w p b → ∀ b', At task.path w p b' → b' = b :=
    fun b new b' new' => new'.unique new ((walks.shaped swapped).distinct distinct)
  have differs : ∀ b, At task.path w p b →
      (∃ node u, (node, .replace u) ∈ calls ∧ node.path = p) → ¬ a.Alike b := by
    rintro b new ⟨node, u, mem, rfl⟩ alike
    obtain rfl := (walks.at_old swapped _ mem).unique stands distinct
    obtain rfl := only b new u (walks.at_new swapped mem)
    exact (converted node u mem).kind_ne alike.kind_eq
  rcases walks.replaced_or_alike swapped p a stands with ⟨node, u, mem, rfl⟩ | ⟨b, new, alike⟩
  · have new := walks.at_new swapped mem
    exact ⟨u, new, only u new, fun _ => ⟨node, u, mem, rfl⟩, differs u new⟩
  · exact ⟨b, new, only b new, fun differ => absurd alike differ, differs b new⟩

/-- What is untouched at a visited node stands in the old value and in the result. -/
theorem Walks.at_untouched (walks : Walks table task w calls) {call : Call} (mem : call ∈ calls)
    {p : Path} (untouched : call.1.Untouched p u) :
    At task.path task.value p u ∧ At task.path w p u := by
  have swapped : ∀ node u, (node, .replace u) ∈ calls → Swapped node u :=
    fun node u mem => (converted node u mem).toSwapped
  obtain ⟨results, length, new⟩ := walks.exists_rebuilt call mem
  obtain ⟨node, answer⟩ := call
  cases answer with
  | replace u' => exact absurd (swapped node u' mem) untouched.not_swapped
  | keep =>
      exact ⟨(walks.at_old swapped _ mem).trans untouched.at_old,
        new.trans (untouched.at_rebuilt length)⟩

end Places

/-! ## Coercions -/

/-- An accepted schema tells of each name that it registers. -/
theorem Schema.resolve_events {r : Resolved} (accepted : s.resolve.result = .ok r) :
    s.resolve.events = r.table.keys.map .registered := by
  obtain ⟨distinct, table, root⟩ := resolve_eq_ok_iff.1 accepted
  have run := extractInto_nil_ok_iff.2 ⟨distinct, rfl, rfl⟩
  have verified := r.verified
  rw [table, root] at verified
  rw [resolve, table]
  simp only [run]
  split
  · rfl
  · next rejected =>
      rw [run, verified] at rejected
      cases rejected

/-- An accepted schema coerces as its resolved schema does, after it has told of its
names. -/
theorem Schema.coerce_eq {r : Resolved} (accepted : s.resolve.result = .ok r) (v : Value) :
    s.coerce v = ⟨(r.coerce v).result, r.table.keys.map .registered ++ (r.coerce v).events⟩ := by
  rw [← resolve_events accepted]
  show Report.andThen s.resolve _ = _
  rw [Report.andThen, accepted]

namespace Resolved

/-- What a coercion tells for debugging are its conversions. -/
theorem Coerces.debug_events {r : Resolved} {calls : List Call} (coerces : r.Coerces v w calls) :
    (r.coerce v).events.filter Event.debugs = calls.filterMap Call.told :=
  (records_walk (fun _ visiting => visiting.not_debugs) (records_coercer _) coerces).2

/-- A coercion changes nothing but scalars that it converts.  The value and its coercion have
the same shape, and they differ exactly where the coercer replaced a value.  Each of these
values is a scalar that a primitive or a choice is visited with, and another kind of scalar
takes its place.  It is told of each of them and of nothing else, in the order of the walk.
What nothing describes, surplus items, values at literals and containers at choices stay
as they are.  It is the same if the schema is resolved anew. -/
theorem coercion_changes_scalars_only (r : Resolved) (v : Value) : ∃ w calls,
    r.Coerces v w calls ∧ (r.coerce v).result = .ok w ∧
    Visits r.table (r.task v) (calls.map Prod.fst) ∧
    v.Shaped w ∧
    (v.Distinct → (calls.map fun call => call.1.path).Nodup ∧
      ∀ p a, At .root v p a → ∃ b, At .root w p b ∧ (∀ b', At .root w p b' → b' = b) ∧
        (¬ a.Alike b ↔ ∃ node u, (node, .replace u) ∈ calls ∧ node.path = p)) ∧
    (∀ node u, (node, .replace u) ∈ calls →
      Converted node u ∧ At .root v node.path node.value ∧ At .root w node.path u) ∧
    (r.coerce v).events.filter Event.debugs = calls.filterMap Call.told ∧
    (∀ call ∈ calls, ∀ p u, call.1.Untouched p u → At .root v p u ∧ At .root w p u) ∧
    ∀ s : Schema, s.resolve.result = .ok r → (s.coerce v).result = .ok w ∧
      (s.coerce v).events = r.table.keys.map .registered ++ (r.coerce v).events := by
  obtain ⟨w, calls, coerces, coerced, walks, repairs⟩ := r.exists_coerces v
  have converted : ∀ node u, (node, .replace u) ∈ calls → Converted node u :=
    fun _ _ mem => coerces.converted mem
  have swapped : ∀ node u, (node, .replace u) ∈ calls → Swapped node u :=
    fun node u mem => (converted node u mem).toSwapped
  have visits := Visits.of_walks (walks.unrepaired repairs) (List.forall_mem_map.2 fun _ _ => rfl)
  rw [List.map_map] at visits
  refine ⟨w, calls, coerces, coerced, visits, walks.shaped swapped, fun distinct => ⟨?_, ?_⟩, ?_,
    coerces.debug_events, ?_, ?_⟩
  · exact walks.nodup_paths swapped distinct
  · exact fun p a stands => walks.exists_differs_iff converted distinct stands
  · exact fun node u mem =>
      ⟨converted node u mem, walks.at_old swapped _ mem, walks.at_new swapped mem⟩
  · exact fun call mem p u untouched => walks.at_untouched converted mem untouched
  · intro s accepted
    rw [Schema.coerce_eq accepted]
    exact ⟨coerced, rfl⟩

/-! ### An order with a note -/

/-- Orders with a number. -/
def orderType : Resolved where
  table := []
  root := .object [⟨"id", false, .primitive ⟨.int, false⟩⟩] none
  verified := rfl

/-- An order whose number is a text.  Nothing describes its note. -/
def order : Value := .dict [("id", .str "7"), ("note", .str "8")]

/-- The calls of the coercer for the order. -/
def orderCalls : List Call :=
  [(⟨.root, some orderType.root, order, ⟨false, false⟩⟩, .keep),
    (⟨Path.root.key "id", some (.primitive ⟨.int, false⟩), .str "7", ⟨false, false⟩⟩,
      .replace (.int 7)),
    (⟨Path.root.key "note", none, .str "8", ⟨false, false⟩⟩, .keep)]

/-- The number of the order is converted, and its note stays a text. -/
theorem order_converted : order.Distinct ∧
    ∃ w, orderType.Coerces order w orderCalls ∧ order.Shaped w ∧
      (orderType.coerce order).events.filter Event.debugs =
        [.coerced (Path.root.key "id") (.str "7") (.int 7)] ∧
      At .root w (Path.root.key "id") (.int 7) ∧ ¬ (Value.str "7").Alike (.int 7) ∧
      At .root w (Path.root.key "note") (.str "8") := by
  have distinct : order.Distinct := by
    have scalars : ∀ e ∈ [("id", Value.str "7"), ("note", .str "8")], e.2.isScalar = true := by
      simp [Value.isScalar]
    exact Value.distinct_dict_iff.2
      ⟨by decide, fun e mem => Value.distinct_of_isScalar (scalars e mem)⟩
  have walk : orderType.Coerces order (.dict [("id", .int 7), ("note", .str "8")]) orderCalls :=
    ⟨rfl, rfl⟩
  obtain ⟨w, calls, coerces, -, -, shaped, differs, replaced, told, untouched, -⟩ :=
    coercion_changes_scalars_only orderType order
  obtain ⟨rfl, ended⟩ := Run.Gives.unique walk coerces
  obtain rfl : orderCalls = calls := (Prod.mk.inj ended).2
  obtain ⟨-, stands, new⟩ := replaced _ _ (.tail _ (.head _))
  obtain ⟨b, -, only, differs⟩ := (differs distinct).2 _ _ stands
  obtain rfl := only _ new
  have changed := differs.2 ⟨_, _, .tail _ (.head _), rfl⟩
  have note := untouched _ (.tail _ (.tail _ (.head _))) _ _ (.undeclared rfl)
  exact ⟨distinct, _, walk, shaped, told, new, changed, note.2⟩

end Resolved

end DataShape
