import DataShape.Proofs.Check.Alternatives
import DataShape.Proofs.Check.Relaxing
import DataShape.Proofs.Names.Splicing
import DataShape.Proofs.Names.Stripping

/-!
# Choices are flat

Whether alternatives are nested or spliced into the choice around them makes no
difference.  That a spliced schema describes no more than the first one is proved with
one table at a time (`Meets.of_spliced`).  In the other direction the table cannot be
kept, since the schemas that a splice puts in place are spliced in the second table.
There the induction is on why a value conforms.  It goes through every list of alternatives
that the schema stands in, because in some of them the schema is spliced and gone
(`Meets.passes`).

The flattened alternatives of a spliced choice describe and convert what the old ones did,
so coercers answer alike (`choose_spliced`), and the walks correspond
(`Resolved.choices_convert_in_order`).
-/

namespace DataShape

open Schema (Head)

variable {table table' : Table} {s t : Schema} {v w : Value} {as bs flat flat' : List Schema}

/-! ## What spliced schemas mean -/

/-- References mean what they lead to. -/
theorem Table.Follows.meets_iff (h : table.Follows s t) : table.Meets s v ↔ table.Meets t v := by
  induction h with
  | here => rfl
  | body found _ ih => exact (meets_reference_iff found).trans ih

/-- With the bodies that the splices come from, a spliced schema describes no more. -/
theorem Table.Splices.implied (h : table.Splices s t) : table.Implies t s := by
  induction h with
  | @splice s t front nested back follows _ ih =>
      intro v met
      obtain ⟨c, mem, met⟩ := meets_choice_iff.1 (ih v met)
      rcases List.mem_append.1 mem with mem | mem
      · rcases List.mem_append.1 mem with mem | mem
        · exact .choice (by simp [mem]) met
        · exact .choice (s := s) (by simp) (follows.meets_iff.2 (.choice mem met))
      · exact .choice (by simp [mem]) met
  | @node s t head length _ ih =>
      have each : List.Forall₂ (fun s t => table.Implies t s) s.children t.children :=
        Schema.forall₂_iff_forall_zip.2 ⟨length, ih⟩
      exact .of_head head.symm each.flip

/-- A spliced schema with spliced bodies describes no more. -/
theorem Table.Meets.of_spliced (tables : table.SplicesTo table') (h : table.Splices s t)
    (met : table'.Meets t v) : table.Meets s v := by
  refine h.implied v (met.of_bodies fun name body' found => ?_)
  obtain ⟨body, lookup, spliced⟩ := tables.exists_before found
  exact ⟨body, lookup, spliced.implied⟩

/-- Wherever the schema is an alternative, the value meets one after the splices. -/
def Table.Passes (table table' : Table) (s : Schema) (v : Value) : Prop :=
  ∀ as bs, s ∈ as → table.Splices (.choice as) (.choice bs) → ∃ t ∈ bs, table'.Meets t v

namespace Table.Passes

theorem meets (h : table.Passes table' s v) (spliced : table.Splices s t) : table'.Meets t v := by
  obtain ⟨u, mem, met⟩ := h [s] [t] (by simp) (.of_children trivial (.cons spliced .nil))
  exact List.mem_singleton.1 mem ▸ met

/-- An alternative that is no choice and leads to none is kept. -/
theorem of_kept (reference : ∀ name, s ≠ .reference name) (choice : ∀ nested, s ≠ .choice nested)
    (kept : ∀ t, Schema.Over table.Splices s t → table'.Meets t v) :
    table.Passes table' s v := by
  intro as bs mem h
  rcases h.of_mem mem with ⟨t, inside, spliced⟩ | ⟨_, nested, _, follows, -⟩
  · exact ⟨t, inside, kept t (.of_head spliced.head spliced.forall₂_children)⟩
  · exact absurd (follows.eq_of_ne_reference reference).symm (choice nested)

end Table.Passes

/-- A spliced schema with spliced bodies describes no less. -/
theorem Table.Meets.passes (tables : table.SplicesTo table') (h : table.Meets s v) :
    table.Passes table' s v := by
  induction h with
  | kind accepts =>
      refine .of_kept (by simp) (by simp) fun t aligned => ?_
      cases aligned
      exact .kind accepts
  | null nullable =>
      refine .of_kept (by simp) (by simp) fun t aligned => ?_
      cases aligned
      exact .null nullable
  | list _ ih =>
      refine .of_kept (by simp) (by simp) fun t aligned => ?_
      cases aligned with
      | list spliced => exact .list fun v mem => (ih v mem).meets spliced
  | @tuple elements items length _ ih =>
      refine .of_kept (by simp) (by simp) fun t aligned => ?_
      cases aligned with
      | tuple each =>
          have passes : List.Forall₂ (table.Passes table') elements items :=
            Schema.forall₂_iff_forall_zip.2 ⟨length, ih⟩
          refine meets_tuple_iff_forall₂.2 (Schema.forall₂_comp (each.flip.imp ?_) passes)
          exact fun _ _ spliced v passes => passes.meets spliced
  | object required declared _ ih =>
      refine .of_kept (by simp) (by simp) fun t aligned => ?_
      cases aligned with
      | object fields wildcards =>
          refine meets_object_of_rel (P := table.Passes table') (fields.imp ?_) ?_
            required declared ih
          · exact fun _ _ h => ⟨h.1, fun v passes => passes.meets h.2⟩
          · cases wildcards with
            | none => exact .none
            | some spliced => exact .some fun v passes => passes.meets spliced
  | @choice nested s v mem _ ih =>
      intro as bs inside h
      rcases h.of_mem inside with ⟨t, kept, spliced⟩ | ⟨front, inner, back, follows, h⟩
      · obtain ⟨nested', rfl⟩ := spliced.exists_choice
        obtain ⟨t, inside, met⟩ := ih nested nested' mem spliced
        exact ⟨.choice nested', kept, .choice inside met⟩
      · cases follows with
        | here => exact ih _ bs (by simp [mem]) h
  | named _ ih =>
      refine .of_kept (by simp) (by simp) fun t aligned => ?_
      cases aligned with
      | named spliced => exact .named (ih.meets spliced)
  | @reference name body v found _ ih =>
      intro as bs inside h
      rcases h.of_mem inside with ⟨t, kept, spliced⟩ | ⟨front, inner, back, follows, h⟩
      · obtain rfl := spliced.eq_reference
        obtain ⟨body', found', spliced⟩ := tables.exists_find? found
        exact ⟨_, kept, .reference found' (ih.meets spliced)⟩
      · cases follows with
        | body found' follows =>
            cases Option.some.inj (found.symm.trans found')
            exact ih _ bs (by simp) (.splice follows h)
  | literal same =>
      refine .of_kept (by simp) (by simp) fun t aligned => ?_
      cases aligned
      exact .literal same

/-- To splice choices does not change what a schema describes. -/
theorem Table.Splices.meets_iff (tables : table.SplicesTo table') (h : table.Splices s t) :
    table.Meets s v ↔ table'.Meets t v :=
  ⟨fun met => (met.passes tables).meets h, fun met => met.of_spliced tables h⟩

/-! ## What spliced choices convert -/

theorem Schema.convert?_eq_of_head (head : Head Eq s t) (v : Value) :
    s.convert? v = t.convert? v := by
  cases s <;> cases t <;> try exact False.elim head
  case primitive.primitive =>
    obtain rfl := head
    rfl
  all_goals rfl

/-- Alternatives that are spliced one by one choose alike. -/
theorem choose_eq_of_forall₂ (tables : table.SplicesTo table')
    (each : List.Forall₂ table.Splices flat flat') (v : Value) :
    table.choose flat v = table'.choose flat' v := by
  have met : (∃ s ∈ flat, table.Meets s v) ↔ ∃ s ∈ flat', table'.Meets s v := by
    induction each with
    | nil => simp
    | cons head _ ih =>
        rw [List.exists_mem_cons_iff, List.exists_mem_cons_iff, ih, head.meets_iff tables]
  have first : flat.findSome? (·.convert? v) = flat'.findSome? (·.convert? v) := by
    clear met
    induction each with
    | nil => rfl
    | cons head _ ih =>
        rw [List.findSome?_cons, List.findSome?_cons, ih, Schema.convert?_eq_of_head head.head]
  classical exact if_congr met rfl first

/-- A choice and a spliced one choose alike. -/
theorem choose_spliced (tables : table.SplicesTo table')
    (h : table.Splices (.choice as) (.choice bs)) (flattens : table.Flattens as flat)
    (flattens' : table'.Flattens bs flat') (v : Value) :
    table.choose flat v = table'.choose flat' v := by
  obtain ⟨_, flattened, each⟩ := h.exists_flattens tables flattens
  obtain rfl := flattened.unique flattens'
  exact choose_eq_of_forall₂ tables each v

/-! ## Both walks -/

/-- A table and one that splices it correspond. -/
theorem Table.SplicesTo.corresponds (tables : table.SplicesTo table') :
    table.Corresponds table' table.Splices table.Splices where
  resolve spliced found found' := spliced.resolve tables found found'
  aligned spliced := .of_head spliced.head spliced.forall₂_children

namespace Resolved

variable {r r' : Resolved} {calls calls' : List Call}

/-- The coercers give the same answer to a node and to a spliced one. -/
theorem answers_spliced (tables : r.table.SplicesTo r'.table) (coerces : r.Coerces v w calls)
    {w' : Value} (coerces' : r'.Coerces v w' calls') {call call' : Call} (mem : call ∈ calls)
    (mem' : call' ∈ calls') (related : call.1.Rel r.table.Splices call'.1) :
    call.2 = call'.2 := by
  obtain ⟨node, answer⟩ := call
  obtain ⟨node', answer'⟩ := call'
  obtain ⟨o, converted, same⟩ := coerces.exists_conversion mem
  obtain ⟨o', converted', same'⟩ := coerces'.exists_conversion mem'
  have plain : (∀ convert convert', conversion convert node = conversion convert' node') →
      answer = answer' := by
    intro eq
    rw [eq] at converted
    obtain rfl := Except.ok.inj (converted.symm.trans converted')
    exact same.symm.trans same'
  cases related with
  | undeclared => exact plain fun _ _ => rfl
  | @declared path t t' u options spliced =>
      by_cases choice : ∃ as, t = .choice as
      · obtain ⟨as, rfl⟩ := choice
        obtain ⟨bs, rfl⟩ := spliced.exists_choice
        obtain ⟨flat, flattens, rfl⟩ := coerces.exists_flattens mem rfl
        obtain ⟨flat', flattens', rfl⟩ := coerces'.exists_flattens mem' rfl
        rw [choose_spliced tables spliced flattens flattens' u]
      · have head := spliced.head
        cases t <;> cases t' <;> try exact False.elim head
        case primitive.primitive =>
          obtain rfl := head
          exact plain fun _ _ => rfl
        case choice.choice as _ => exact absurd ⟨as, rfl⟩ choice
        all_goals exact plain fun _ _ => rfl

/-- A schema and a spliced one coerce every value to the same value. -/
theorem coerce_splice (tables : r.table.SplicesTo r'.table)
    (roots : r.table.Splices r.root r'.root) (v : Value) :
    ∃ w, (r.coerce v).result = .ok w ∧ (r'.coerce v).result = .ok w := by
  obtain ⟨w, calls, coerces, coerced, walks, -⟩ := r.exists_coerces v
  obtain ⟨w', calls', coerces', coerced', walks', -⟩ := r'.exists_coerces v
  obtain ⟨rfl, -⟩ := walks.correspond tables.corresponds walks' (.declared roots)
    fun call mem call' mem' related => answers_spliced tables coerces coerces' mem mem' related
  exact ⟨w, coerced, coerced'⟩

/-- A schema and a spliced one find the same values valid. -/
theorem isValid_splice (tables : r.table.SplicesTo r'.table)
    (roots : r.table.Splices r.root r'.root) (v : Value) :
    ∃ valid, (r.isValid v).result = .ok valid ∧ (r'.isValid v).result = .ok valid := by
  obtain ⟨valid, judged, met⟩ := r.exists_isValid v
  obtain ⟨valid', judged', met'⟩ := r'.exists_isValid v
  obtain rfl : valid = valid' :=
    Bool.eq_iff_iff.2 (met.trans ((roots.meets_iff tables).trans met'.symm))
  exact ⟨valid, judged, judged'⟩

/-- At every choice that is visited, a value stays if it meets one of the flattened
alternatives, and else the first of them that converts it wins.  What comes out is the
old value or meets the choice.  With choices spliced anywhere, in the root and in the
bodies, the schema is still accepted, finds the same values valid and coerces every value
to the same value. -/
theorem choices_convert_in_order (r : Resolved) (v : Value) :
    (∃ w calls, r.Coerces v w calls ∧ (r.coerce v).result = .ok w ∧
      ∀ node answer, (node, answer) ∈ calls →
        ∀ alternatives, node.schema = some (.choice alternatives) →
        ∃ flat, r.table.Flattens alternatives flat ∧
          (∀ flat', r.table.Flattens alternatives flat' → flat' = flat) ∧
          ((∃ s ∈ flat, r.table.Meets s node.value) → answer.on node.value = node.value) ∧
          ((¬ ∃ s ∈ flat, r.table.Meets s node.value) → answer.on node.value =
            (flat.findSome? (·.convert? node.value)).getD node.value) ∧
          (answer.on node.value = node.value ∨
            r.table.Meets (.choice alternatives) (answer.on node.value))) ∧
    ∀ table root, r.table.SplicesTo table → r.table.Splices r.root root →
      ∃ r' : Resolved, r'.table = table ∧ r'.root = root ∧
        (∃ valid, (r.isValid v).result = .ok valid ∧ (r'.isValid v).result = .ok valid) ∧
        ∃ w, (r.coerce v).result = .ok w ∧ (r'.coerce v).result = .ok w := by
  refine ⟨?_, fun table root tables spliced => ?_⟩
  · obtain ⟨w, calls, coerces, coerced, -, -⟩ := r.exists_coerces v
    refine ⟨w, calls, coerces, coerced, fun node answer mem alternatives declared => ?_⟩
    obtain ⟨flat, flattens, rfl⟩ := coerces.exists_flattens mem declared
    refine ⟨flat, flattens, fun flat' flattens' => flattens'.unique flattens, ?_, ?_, ?_⟩
    · intro met
      rw [Table.choose, if_pos met]
      rfl
    · intro unmet
      rw [Table.choose, if_neg unmet]
      cases flat.findSome? (·.convert? node.value) <;> rfl
    · cases chosen : r.table.choose flat node.value with
      | none => exact .inl rfl
      | some u => exact .inr (meets_of_choose flattens chosen)
  · exact ⟨⟨table, root, tables.verify_eq_ok spliced r.verified⟩, rfl, rfl,
      isValid_splice tables spliced v, coerce_splice tables spliced v⟩

/-! ### Numbers and flags -/

/-- Integers and floats under a name, and a choice of that name and of truth values. -/
def numberOrFlag : Resolved where
  table := [("number", .choice [.primitive ⟨.int, false⟩, .primitive ⟨.float, false⟩])]
  root := .choice [.reference "number", .primitive ⟨.bool, false⟩]
  verified := rfl

/-- With the name spliced into the choice, a text with a number in it is still coerced to
the number, though every text could become a truth value. -/
theorem numberOrFlag_spliced :
    numberOrFlag.table.SplicesTo numberOrFlag.table ∧
    numberOrFlag.table.Splices numberOrFlag.root
      (.choice [.primitive ⟨.int, false⟩, .primitive ⟨.float, false⟩, .primitive ⟨.bool, false⟩]) ∧
    ∃ r' : Resolved, r'.root = .choice [.primitive ⟨.int, false⟩, .primitive ⟨.float, false⟩,
        .primitive ⟨.bool, false⟩] ∧
      (r'.coerce (.str "7")).result = .ok (.int 7) ∧
      (r'.isValid (.str "7")).result = .ok false := by
  have tables : numberOrFlag.table.SplicesTo numberOrFlag.table :=
    List.forall₂_same.2 fun x _ => ⟨rfl, .refl x.2⟩
  have root : numberOrFlag.table.Splices numberOrFlag.root
      (.choice [.primitive ⟨.int, false⟩, .primitive ⟨.float, false⟩,
        .primitive ⟨.bool, false⟩]) :=
    .splice_head (.body rfl .here) (.refl _)
  obtain ⟨-, spliced⟩ := choices_convert_in_order numberOrFlag (.str "7")
  obtain ⟨r', -, same, ⟨_, valid, valid'⟩, _, coerced, coerced'⟩ := spliced _ _ tables root
  cases valid
  cases coerced
  exact ⟨tables, root, r', same, coerced', valid'⟩

end Resolved

end DataShape
