import DataShape.Proofs.Names.Flattening

/-!
# Spliced choices

To *splice* an alternative that is a choice, or a reference that leads to one, is to put
the alternatives of that choice in its place.  What was put there can be spliced again.
`Splices` allows this anywhere in a schema, any number of times at once, always with the
bodies of one table.

At a choice, each alternative is either kept or spliced (`splices_cons_iff`,
`Splices.of_mem`).  So the flattened alternatives stay the same, but for what is spliced
below them (`Splices.exists_flattens`).

A spliced table still passes the check, since a name that it leads to is one that the
first table leads to in one step or more (`SplicesTo.verify_eq_ok`).
-/

namespace DataShape

open Schema (Head Part Exposes)

namespace Table

variable {table table' : Table} {s t u : Schema} {as as' bs bs' flat : List Schema}
  {name m : String}

/-! ## Definitions -/

/-- Some alternatives of choices are replaced by the alternatives that they stand for. -/
inductive Splices (table : Table) : Schema → Schema → Prop
  | splice {s t : Schema} {front nested back : List Schema} :
      table.Follows s (.choice nested) → Splices table (.choice (front ++ nested ++ back)) t →
      Splices table (.choice (front ++ s :: back)) t
  | node {s t : Schema} : Head Eq s t → s.children.length = t.children.length →
      (∀ x ∈ s.children.zip t.children, Splices table x.1 x.2) → Splices table s t

/-- The bodies of the second table splice those of the first one. -/
def SplicesTo (table table' : Table) : Prop :=
  List.Forall₂ (fun x y => x.1 = y.1 ∧ table.Splices x.2 y.2) table table'

/-! ## Nodes -/

theorem Splices.of_children (head : Head Eq s t)
    (below : List.Forall₂ table.Splices s.children t.children) : table.Splices s t :=
  .node head below.length_eq (Schema.forall₂_iff_forall_zip.1 below).2

/-- Nothing need be spliced. -/
theorem Splices.refl (s : Schema) : table.Splices s s := by
  induction s using Schema.children_ind with
  | step s ih => exact .of_children (.refl s) (List.forall₂_same.2 ih)

/-- The first alternative is spliced. -/
theorem Splices.splice_head (follows : table.Follows s (.choice bs))
    (h : table.Splices (.choice (bs ++ as)) t) : table.Splices (.choice (s :: as)) t := by
  show table.Splices (.choice ([] ++ s :: as)) t
  exact .splice follows h

/-- A spliced node says the same. -/
theorem Splices.head (h : table.Splices s t) : Head Eq s t := by
  induction h with
  | @splice s t front nested back _ _ ih =>
      cases t with
      | choice => trivial
      | _ => exact ih
  | node head => exact head

theorem Splices.exists_choice (h : table.Splices (.choice as) t) : ∃ bs, t = .choice bs := by
  have head := h.head
  cases t with
  | choice bs => exact ⟨bs, rfl⟩
  | _ => exact False.elim head

theorem Splices.eq_reference (h : table.Splices (.reference name) t) : t = .reference name := by
  have head := h.head
  cases t with
  | reference n => exact congrArg _ (Eq.symm head)
  | _ => exact False.elim head

/-- Below anything but a choice, the children are spliced one by one. -/
theorem Splices.forall₂_children (h : table.Splices s t) (choice : ∀ as, s ≠ .choice as) :
    List.Forall₂ table.Splices s.children t.children := by
  cases h with
  | splice => exact absurd rfl (choice _)
  | node _ length below => exact Schema.forall₂_iff_forall_zip.2 ⟨length, below⟩

/-! ## Alternatives -/

/-- Alternatives are spliced one by one, or one of them stands for others that are. -/
theorem Splices.choice_ind {motive : List Schema → Prop}
    (each : ∀ as, List.Forall₂ table.Splices as bs → motive as)
    (splice : ∀ s front nested back, table.Follows s (.choice nested) →
      table.Splices (.choice (front ++ nested ++ back)) (.choice bs) →
      motive (front ++ nested ++ back) → motive (front ++ s :: back))
    (h : table.Splices (.choice as) (.choice bs)) : motive as := by
  generalize before : Schema.choice as = x at h
  generalize after : Schema.choice bs = y at h
  induction h generalizing as with
  | splice follows h ih =>
      cases before
      exact splice _ _ _ _ follows (after ▸ h) (ih rfl after)
  | node _ length below =>
      cases before
      cases after
      exact each as (Schema.forall₂_iff_forall_zip.2 ⟨length, below⟩)

/-- An alternative more, spliced for itself. -/
theorem Splices.cons (first : table.Splices s t) (h : table.Splices (.choice as) (.choice bs)) :
    table.Splices (.choice (s :: as)) (.choice (t :: bs)) := by
  refine h.choice_ind (motive := fun as => table.Splices (.choice (s :: as)) (.choice (t :: bs)))
    (fun as each => ?_) fun u front nested back follows _ ih => ?_
  · exact .of_children trivial (.cons first each)
  · show table.Splices (.choice ((s :: front) ++ u :: back)) (.choice (t :: bs))
    exact .splice follows ih

/-- Two lists of alternatives are spliced one after the other. -/
theorem Splices.append (h : table.Splices (.choice as) (.choice bs))
    (h' : table.Splices (.choice as') (.choice bs')) :
    table.Splices (.choice (as ++ as')) (.choice (bs ++ bs')) := by
  refine h.choice_ind
    (motive := fun as => table.Splices (.choice (as ++ as')) (.choice (bs ++ bs')))
    (fun as each => ?_) fun s front nested back follows _ ih => ?_
  · clear h
    induction each with
    | nil => exact h'
    | cons first _ ih => exact .cons first ih
  · rw [List.append_assoc _ back] at ih
    rw [List.append_assoc, List.cons_append]
    exact .splice follows ih

theorem splices_nil_iff : table.Splices (.choice []) (.choice bs) ↔ bs = [] := by
  refine ⟨fun h => ?_, fun nil => nil ▸ .refl _⟩
  refine h.choice_ind (motive := fun as => as = [] → bs = []) ?_ ?_ rfl
  · rintro as each rfl
    exact List.forall₂_nil_left_iff.1 each
  · intro s front nested back _ _ _ none
    exact absurd none (by simp)

/-- The first alternative is kept, or it is spliced before anything else. -/
theorem splices_cons_iff : table.Splices (.choice (s :: as)) (.choice bs) ↔
    (∃ t rest, bs = t :: rest ∧ table.Splices s t ∧ table.Splices (.choice as) (.choice rest)) ∨
      ∃ nested, table.Follows s (.choice nested) ∧
        table.Splices (.choice (nested ++ as)) (.choice bs) := by
  constructor
  · intro h
    refine h.choice_ind (motive := fun whole => ∀ as, whole = s :: as →
      (∃ t rest, bs = t :: rest ∧ table.Splices s t ∧ table.Splices (.choice as) (.choice rest)) ∨
        ∃ nested, table.Follows s (.choice nested) ∧
          table.Splices (.choice (nested ++ as)) (.choice bs)) ?_ ?_ as rfl
    · rintro _ each as rfl
      obtain ⟨t, rest, first, below, rfl⟩ := List.forall₂_cons_left_iff.1 each
      exact .inl ⟨t, rest, rfl, first, .of_children trivial below⟩
    · intro u front nested back follows h ih as whole
      cases front with
      | nil =>
          cases whole
          exact .inr ⟨nested, follows, h⟩
      | cons first front =>
          cases whole
          rcases ih (front ++ nested ++ back) rfl with
            ⟨t, rest, same, kept, spliced⟩ | ⟨inner, leads, spliced⟩
          · exact .inl ⟨t, rest, same, kept, .splice follows spliced⟩
          · refine .inr ⟨inner, leads, ?_⟩
            show table.Splices (.choice (inner ++ (front ++ u :: back))) _
            rw [← List.append_assoc, ← List.append_assoc] at spliced
            rw [← List.append_assoc]
            exact .splice follows spliced
  · rintro (⟨t, rest, rfl, first, spliced⟩ | ⟨nested, follows, spliced⟩)
    · exact first.cons spliced
    · exact .splice_head follows spliced

/-- Every alternative is kept somewhere, or it is spliced at some time. -/
theorem Splices.of_mem (h : table.Splices (.choice as) (.choice bs)) (mem : s ∈ as) :
    (∃ t ∈ bs, table.Splices s t) ∨ ∃ front nested back, table.Follows s (.choice nested) ∧
      table.Splices (.choice (front ++ nested ++ back)) (.choice bs) := by
  refine h.choice_ind (motive := fun as => s ∈ as → (∃ t ∈ bs, table.Splices s t) ∨
    ∃ front nested back, table.Follows s (.choice nested) ∧
      table.Splices (.choice (front ++ nested ++ back)) (.choice bs)) ?_ ?_ mem
  · exact fun as each mem => .inl (Schema.exists_mem_of_forall₂ each mem)
  · intro u front nested back follows h ih mem
    rcases List.mem_append.1 mem with mem | mem
    · exact ih (by simp [mem])
    · rcases List.mem_cons.1 mem with rfl | mem
      · exact .inr ⟨front, nested, back, follows, h⟩
      · exact ih (by simp [mem])

/-! ## References and flattened alternatives -/

/-- The body under a name is spliced in the second table. -/
theorem SplicesTo.exists_find? (tables : table.SplicesTo table') {body : Schema}
    (found : Entries.find? name table = some body) :
    ∃ body', Entries.find? name table' = some body' ∧ table.Splices body body' := by
  have related := rel_find? tables name
  rw [found] at related
  cases lookup : Entries.find? name table' with
  | none => simp [lookup] at related
  | some body' => exact ⟨body', rfl, by simpa [lookup] using related⟩

/-- A body of the second table splices the body under the same name in the first one. -/
theorem SplicesTo.exists_before (tables : table.SplicesTo table') {body' : Schema}
    (found : Entries.find? name table' = some body') :
    ∃ body, Entries.find? name table = some body ∧ table.Splices body body' := by
  have related := rel_find? tables name
  rw [found] at related
  cases lookup : Entries.find? name table with
  | none => simp [lookup] at related
  | some body => exact ⟨body, rfl, by simpa [lookup] using related⟩

/-- What a schema leads to is spliced in what the spliced schema leads to. -/
theorem Splices.follows (tables : table.SplicesTo table') (h : table.Splices s t)
    (follows : table.Follows s u) : ∃ u', table'.Follows t u' ∧ table.Splices u u' := by
  induction follows generalizing t with
  | here => exact ⟨t, .here, h⟩
  | body found _ ih =>
      obtain ⟨body', found', spliced⟩ := tables.exists_find? found
      obtain ⟨u', follows, spliced⟩ := ih spliced
      exact ⟨u', h.eq_reference ▸ .body found' follows, spliced⟩

/-- What a schema resolves to is spliced in what the spliced schema resolves to. -/
theorem Splices.resolve (tables : table.SplicesTo table') (h : table.Splices s t)
    {s' t' : Schema} (found : table.resolve s = .ok s') (found' : table'.resolve t = .ok t') :
    table.Splices s' t' := by
  obtain ⟨follows, other⟩ := resolve_eq_ok_iff.1 found
  obtain ⟨follows', other'⟩ := resolve_eq_ok_iff.1 found'
  obtain ⟨u, leads, spliced⟩ := h.follows tables follows
  have last : ∀ name, u ≠ .reference name := by
    rintro name rfl
    exact other name spliced.head.eq_reference
  rcases leads.total follows' with ahead | back
  · exact ahead.eq_of_ne_reference last ▸ spliced
  · exact back.eq_of_ne_reference other' ▸ spliced

/-- To splice a choice does not change its flattened alternatives but for what is spliced
below them. -/
theorem Splices.exists_flattens (tables : table.SplicesTo table')
    (h : table.Splices (.choice as) (.choice bs)) (flattens : table.Flattens as flat) :
    ∃ flat', table'.Flattens bs flat' ∧ List.Forall₂ table.Splices flat flat' := by
  induction flattens generalizing bs with
  | nil =>
      obtain rfl := splices_nil_iff.1 h
      exact ⟨[], .nil, .nil⟩
  | @reference name body rest flat found _ ih =>
      rcases splices_cons_iff.1 h with ⟨t, bs, rfl, first, spliced⟩ | ⟨nested, follows, spliced⟩
      · obtain ⟨body', found', inner⟩ := tables.exists_find? found
        obtain ⟨flat', flattens, each⟩ := ih (inner.cons spliced)
        exact ⟨flat', first.eq_reference ▸ .reference found' flattens, each⟩
      · cases follows with
        | body found' follows =>
            cases found.symm.trans found'
            exact ih (splices_cons_iff.2 (.inr ⟨nested, follows, spliced⟩))
  | @choice nested rest flat _ ih =>
      rcases splices_cons_iff.1 h with ⟨t, bs, rfl, first, spliced⟩ | ⟨inner, follows, spliced⟩
      · obtain ⟨nested', rfl⟩ := first.exists_choice
        obtain ⟨flat', flattens, each⟩ := ih (first.append spliced)
        exact ⟨flat', .choice flattens, each⟩
      · cases follows with
        | here => exact ih spliced
  | @leaf s rest flat reference choice _ ih =>
      rcases splices_cons_iff.1 h with ⟨t, bs, rfl, first, spliced⟩ | ⟨inner, follows, -⟩
      · obtain ⟨flat', flattens, each⟩ := ih spliced
        refine ⟨t :: flat', .leaf ?_ ?_ flattens, .cons first each⟩
        · rintro name rfl
          exact reference name first.head.eq_reference
        · rintro nested rfl
          have head := first.head
          cases s with
          | choice nested => exact choice nested rfl
          | _ => exact head
      · exact absurd (follows.eq_of_ne_reference reference).symm (choice inner)

/-! ## Checking a spliced table -/

/-- What comes out of a splice is known, since it is known before or stands in a body. -/
theorem Knows.splice {front nested back : List Schema} (bodies : ∀ x ∈ table, table.Knows x.2)
    (follows : table.Follows s (.choice nested))
    (known : table.Knows (.choice (front ++ s :: back))) :
    table.Knows (.choice (front ++ nested ++ back)) := by
  have alternatives : ∀ c ∈ front ++ s :: back, table.Knows c :=
    fun c mem name part => known name (.child mem part)
  intro name part
  rcases Part.iff.1 part with same | ⟨c, mem, part⟩
  · cases same
  · rcases List.mem_append.1 mem with mem | mem
    · rcases List.mem_append.1 mem with mem | mem
      · exact alternatives c (by simp [mem]) name part
      · exact (alternatives s (by simp)).of_follows bodies follows name (.child mem part)
    · exact alternatives c (by simp [mem]) name part

/-- No reference comes up that has no body. -/
theorem Knows.of_splices (bodies : ∀ x ∈ table, table.Knows x.2) (h : table.Splices s t)
    (known : table.Knows s) : table.Knows t := by
  induction h with
  | splice follows _ ih => exact ih (known.splice bodies follows)
  | node head length _ ih => exact .of_head head length ih known

/-- A name that a spliced schema exposes is one that the first schema leads to. -/
theorem Splices.exists_leads (h : table.Splices s t) (exposes : Exposes m t) :
    ∃ n, Exposes n s ∧ Relation.ReflTransGen table.Leads n m := by
  induction h with
  | @splice s t front nested back follows _ ih =>
      obtain ⟨n, exposes, leads⟩ := ih exposes
      cases exposes with
      | choice mem exposes =>
          rcases List.mem_append.1 mem with mem | mem
          · rcases List.mem_append.1 mem with mem | mem
            · exact ⟨n, .choice (by simp [mem]) exposes, leads⟩
            · obtain ⟨k, exposes, leads⟩ := follows.exists_leads ⟨n, .choice mem exposes, leads⟩
              exact ⟨k, .choice (by simp) exposes, leads⟩
          · exact ⟨n, .choice (by simp [mem]) exposes, leads⟩
  | node head length _ ih => exact exists_leads_of_head head length ih exposes

/-- Where a spliced table leads in one step, the first table leads in some steps. -/
theorem SplicesTo.leads (tables : table.SplicesTo table') (leads : table'.Leads name m) :
    Relation.TransGen table.Leads name m := by
  obtain ⟨body', found, exposes⟩ := leads_iff.1 leads
  obtain ⟨body, lookup, spliced⟩ := tables.exists_before found
  obtain ⟨n, exposes, rest⟩ := spliced.exists_leads exposes
  exact .head' (leads_iff.2 ⟨body, lookup, exposes⟩) rest

/-- What splices a table and a root that pass the check passes it, too. -/
theorem SplicesTo.verify_eq_ok (tables : table.SplicesTo table') {root root' : Schema}
    (spliced : table.Splices root root') (verified : table.verify root = .ok ()) :
    table'.verify root' = .ok () := by
  obtain ⟨resolves, bodies, -⟩ := verify_eq_ok_iff.1 verified
  have knows : ∀ x ∈ table, table.Knows x.2 := fun x mem => (bodies x mem).knows
  have known : ∀ {s t : Schema}, table.Knows s → table.Splices s t → table'.Knows t := by
    intro s t known spliced name part
    exact keys_eq_of_forall₂ tables ▸ known.of_splices knows spliced name part
  refine verify_of_leads verified (known resolves.knows spliced) (fun y mem => ?_)
    fun _ _ leads => tables.leads leads
  obtain ⟨x, zipped, rfl⟩ := Schema.exists_mem_zip tables.length_eq mem
  have both := (Schema.forall₂_iff_forall_zip.1 tables).2 x zipped
  exact known (knows x.1 (List.of_mem_zip zipped).1) both.2

end Table

end DataShape
