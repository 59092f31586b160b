import DataShape.Proofs.Check.Termination
import DataShape.Proofs.Walk.Unfolding

/-!
# References mean their bodies

To unfold a schema changes which schemas a walk goes through and nothing that a user
can see but the texts of its choices.  Nodes that mirror each other raise failures at
the same paths, if the walks for the alternatives of their choices answer alike
(`Node.Mirrors.map_path_raised`).  That these walks do is an induction on their limit
(`satisfies_alike`), and so is that values are converted alike (`convertAtChoice_alike`).

With it the failures of a value lie at the same paths, and its coercion is the same
(`Resolved.references_mean_bodies`).
-/

namespace DataShape

variable {table table' : Table} {judge judge' : Schema → Value → Report Bool}
  {s s' t t' : Schema} {v w w' : Value} {limit limit' : Nat}

/-! ## Failures at a node -/

/-- Where both of two judges answer, about a schema and about one that unfolds it, they
answer the same. -/
def JudgeAlike (table : Table) (judge judge' : Schema → Value → Report Bool) : Prop :=
  ∀ s s' v b b', table.Unfolds s s' → (judge s v).result = .ok b →
    (judge' s' v).result = .ok b' → b = b'

theorem anyMet_alike (alike : JudgeAlike table judge judge') {ss ss' : List Schema} {b b' : Bool}
    (unfolds : List.Forall₂ table.Unfolds ss ss') (answered : (anyMet judge v ss).result = .ok b)
    (answered' : (anyMet judge' v ss').result = .ok b') : b = b' := by
  induction unfolds with
  | nil =>
      cases answered
      cases answered'
      rfl
  | cons head _ ih =>
      rw [anyMet, Report.result_bind_eq_ok_iff] at answered answered'
      obtain ⟨met, judged, answered⟩ := answered
      obtain ⟨met', judged', answered'⟩ := answered'
      obtain rfl := alike _ _ _ _ _ head judged judged'
      cases met with
      | true =>
          cases answered
          cases answered'
          rfl
      | false => exact ih answered answered'

theorem missingProperties_heads {fs gs : List (Field Schema)}
    (heads : fs.map Field.head = gs.map Field.head) (entries : Entries Value) :
    missingProperties fs entries = missingProperties gs entries := by
  have eq : ∀ fs : List (Field Schema), missingProperties fs entries =
      (fs.map Field.head).filterMap fun (name, optional) =>
        if optional || entries.has name then none else some (.missingProperty name) := by
    intro fs
    rw [List.filterMap_map]
    rfl
  rw [eq, eq, heads]

theorem unexpectedProperties_heads {fs gs : List (Field Schema)} {w x : Option Schema}
    (heads : fs.map Field.head = gs.map Field.head) (both : w.isSome = x.isSome)
    (entries : Entries Value) :
    unexpectedProperties fs w entries = unexpectedProperties gs x entries := by
  have names : fs.map Field.name = gs.map Field.name := by
    simpa [Function.comp_def, Field.head] using congrArg (List.map Prod.fst) heads
  have none : w = none ↔ x = none := by
    cases w <;> cases x <;> simp_all
  rw [unexpectedProperties_eq, unexpectedProperties_eq, names]
  simp only [none]

/-- A value differs in the same way from nodes that mirror each other. -/
theorem mismatches_mirrors (mirrors : table.Mirrors t t') (v : Value) :
    mismatches t v = mismatches t' v := by
  cases mirrors with
  | list | choice | named => cases v <;> rfl
  | tuple each =>
      cases v with
      | list items => simp only [mismatches, each.length_eq]
      | _ => rfl
  | object fields wildcards =>
      cases v with
      | dict entries =>
          have heads := (Table.forall₂_fields_iff.1 fields).1
          have both := (Table.rel_iff_forall₂_toList.1 wildcards).1
          simp only [mismatches, missingProperties_heads heads,
            unexpectedProperties_heads heads both]
      | _ => rfl
  | primitive | reference | literal => rfl

/-- Nodes that mirror each other raise failures at the same paths. -/
theorem Node.Mirrors.map_path_raised {node node' : Node} (mirrors : node.Mirrors table node')
    (alike : JudgeAlike table judge judge') (right : Judges table judge)
    (right' : Judges table' judge') (settles : Settles judge node)
    (settles' : Settles judge' node') :
    (raised table node).map Failure.path = (raised table' node').map Failure.path := by
  cases mirrors with
  | undeclared => rfl
  | @declared path t t' v options mirrors =>
      have same : ((mismatches t v).map (Failure.mk path)).map Failure.path =
          ((mismatches t' v).map (Failure.mk path)).map Failure.path := by
        rw [mismatches_mirrors mirrors v]
      cases mirrors with
      | choice unfolds =>
          obtain ⟨b, answered⟩ := settles _ rfl
          obtain ⟨b', answered'⟩ := settles' _ rfl
          have decided := anyMet_eq_ok right answered
          have decided' := anyMet_eq_ok right' answered'
          obtain rfl := anyMet_alike alike unfolds answered answered'
          cases b with
          | true => rw [raised_of_met (decided.1 rfl), raised_of_met (decided'.1 rfl)]
          | false =>
              rw [raised_of_not_met fun met => Bool.false_ne_true (decided.2 met),
                raised_of_not_met fun met => Bool.false_ne_true (decided'.2 met)]
              rfl
      | _ => exact same

/-- Calls that mirror each other one by one raise failures at the same paths. -/
theorem map_path_raised_calls (alike : JudgeAlike table judge judge')
    (right : Judges table judge) (right' : Judges table' judge') {calls calls' : List Call}
    (mirrors : List.Forall₂ (Call.Mirrors table) calls calls')
    (settles : ∀ call ∈ calls, Settles judge call.1)
    (settles' : ∀ call ∈ calls', Settles judge' call.1) :
    (calls.flatMap fun call => raised table call.1).map Failure.path =
      (calls'.flatMap fun call => raised table' call.1).map Failure.path := by
  induction mirrors with
  | nil => rfl
  | cons head _ ih =>
      obtain ⟨first, settles⟩ := List.forall_mem_cons.1 settles
      obtain ⟨first', settles'⟩ := List.forall_mem_cons.1 settles'
      rw [List.flatMap_cons, List.flatMap_cons, List.map_append, List.map_append,
        head.1.map_path_raised alike right right' first first', ih settles settles']

/-! ## Failures of a value -/

/-- The walks of the validator find failures at the same paths. -/
theorem map_path_found (tables : table.UnfoldsTo table') (unfolds : table.Unfolds s s')
    (alike : JudgeAlike table judge judge') (right : Judges table judge)
    (right' : Judges table' judge') {found found' : List Failure}
    (gives : (walk table (validator judge) limit s v).Gives [] w found)
    (gives' : (walk table' (validator judge') limit' s' v).Gives [] w' found') :
    found.map Failure.path = found'.map Failure.path := by
  obtain ⟨calls, walks, settles, rfl⟩ := of_gives_walk_validator right gives
  obtain ⟨calls', walks', settles', rfl⟩ := of_gives_walk_validator right' gives'
  obtain ⟨-, mirrors⟩ := walks.unfolds tables walks' (.declared unfolds)
    fun call mem call' mem' _ => (settles call mem).1.trans (settles' call' mem').1.symm
  exact map_path_raised_calls alike right right' mirrors (fun call mem => (settles call mem).2)
    fun call mem => (settles' call mem).2

/-- The walks for the alternatives of choices answer alike, with any two limits. -/
theorem satisfies_alike (tables : table.UnfoldsTo table') (limit limit' : Nat) :
    JudgeAlike table (satisfies table limit) (satisfies table' limit') := by
  induction limit generalizing limit' with
  | zero =>
      intro s s' v b b' unfolds answered
      cases answered
  | succ limit ih =>
      cases limit' with
      | zero =>
          intro s s' v b b' unfolds answered answered'
          cases answered'
      | succ limit' =>
          intro s s' v b b' unfolds answered answered'
          rw [satisfies, Report.result_map_eq_ok_iff] at answered answered'
          obtain ⟨⟨w, found⟩, started, rfl⟩ := answered
          obtain ⟨⟨w', found'⟩, started', rfl⟩ := answered'
          have paths := map_path_found tables unfolds (ih limit') (judges_satisfies table limit)
            (judges_satisfies table' limit') (Run.start_eq_ok_iff.1 started)
            (Run.start_eq_ok_iff.1 started')
          simpa using congrArg List.isEmpty paths

/-! ## Conversions -/

theorem firstConversion_alike {convert convert' : Schema → Report (Option Value)}
    {ss ss' : List Schema} {o o' : Option Value}
    (each : List.Forall₂ (fun s s' => ∀ a b, (convert s).result = .ok a →
      (convert' s').result = .ok b → a = b) ss ss')
    (first : (firstConversion convert ss).result = .ok o)
    (second : (firstConversion convert' ss').result = .ok o') : o = o' := by
  induction each with
  | nil =>
      cases first
      cases second
      rfl
  | cons head _ ih =>
      rw [firstConversion, Report.result_bind_eq_ok_iff] at first second
      obtain ⟨a, offered, first⟩ := first
      obtain ⟨b, offered', second⟩ := second
      obtain rfl := head a b offered offered'
      cases a with
      | some u =>
          cases first
          cases second
          rfl
      | none => exact ih first second

/-- A value is converted in the same way at a choice and at one that unfolds it. -/
theorem convertAtChoice_alike (tables : table.UnfoldsTo table') {ss ss' : List Schema}
    {o o' : Option Value} (unfolds : List.Forall₂ table.Unfolds ss ss')
    (first : (convertAtChoice table limit ss v).result = .ok o)
    (second : (convertAtChoice table' limit' ss' v).result = .ok o') : o = o' := by
  induction limit generalizing limit' ss ss' o o' with
  | zero => cases first
  | succ limit ih =>
      cases limit' with
      | zero => cases second
      | succ limit' =>
          rw [convertAtChoice_succ, Report.result_bind_eq_ok_iff] at first second
          obtain ⟨met, judged, first⟩ := first
          obtain ⟨met', judged', second⟩ := second
          obtain rfl := anyMet_alike (satisfies_alike tables limit limit') unfolds judged judged'
          cases met with
          | true =>
              cases first
              cases second
              rfl
          | false =>
              refine firstConversion_alike (unfolds.imp fun s s' unfolds a b offered offered' => ?_)
                first second
              obtain ⟨t, found⟩ := resolve_of_offer offered
              obtain ⟨t', found'⟩ := resolve_of_offer offered'
              rw [offer_result found] at offered
              rw [offer_result found'] at offered'
              cases unfolds.resolve tables found found' with
              | choice unfolds => exact ih unfolds offered offered'
              | _ =>
                  cases offered
                  cases offered'
                  rfl

/-- Coercers whose conversions at choices are alike give the same answer to nodes that
mirror each other. -/
theorem coercer_alike {convert convert' : List Schema → Value → Report (Option Value)}
    (each : ∀ ss ss' v a b, List.Forall₂ table.Unfolds ss ss' → (convert ss v).result = .ok a →
      (convert' ss' v).result = .ok b → a = b) {node node' : Node}
    (mirrors : node.Mirrors table node') {answer answer' : Visit} {st mid st' mid' : Unit}
    (gives : (coercer convert node).Gives st answer mid)
    (gives' : (coercer convert' node').Gives st' answer' mid') : answer = answer' := by
  obtain ⟨o, converted, rfl⟩ := gives_coercer_iff.1 gives
  obtain ⟨o', converted', rfl⟩ := gives_coercer_iff.1 gives'
  have same : o = o' := by
    cases mirrors with
    | undeclared => exact Except.ok.inj (converted.symm.trans converted')
    | declared mirrors =>
        cases mirrors with
        | choice unfolds => exact each _ _ _ _ _ unfolds converted converted'
        | _ => exact Except.ok.inj (converted.symm.trans converted')
  rw [same]

/-! ## Resolved schemas -/

namespace Resolved

variable {r r' : Resolved}

theorem failures_unfold (tables : r.table.UnfoldsTo r'.table)
    (roots : r.table.Unfolds r.root r'.root) {found found' : List Failure}
    (collected : (r.failures v).result = .ok found)
    (collected' : (r'.failures v).result = .ok found') :
    found.map Failure.path = found'.map Failure.path := by
  obtain ⟨_, gives⟩ := r.failures_eq_ok_iff.1 collected
  obtain ⟨_, gives'⟩ := r'.failures_eq_ok_iff.1 collected'
  exact map_path_found tables roots (satisfies_alike tables _ _) (judges_satisfies _ _)
    (judges_satisfies _ _) gives gives'

theorem coerce_unfold (tables : r.table.UnfoldsTo r'.table)
    (roots : r.table.Unfolds r.root r'.root) (coerced : (r.coerce v).result = .ok w)
    (coerced' : (r'.coerce v).result = .ok w') : w = w' := by
  obtain ⟨calls, walks, answers⟩ := Walks.of_gives (coerceWithin_eq_ok_iff.1 coerced)
  obtain ⟨calls', walks', answers'⟩ := Walks.of_gives (coerceWithin_eq_ok_iff.1 coerced')
  refine (walks.unfolds tables walks' (.declared roots) fun call mem call' mem' mirrors => ?_).1
  obtain ⟨_, _, asked⟩ := exists_gives_of_answers answers mem
  obtain ⟨_, _, asked'⟩ := exists_gives_of_answers answers' mem'
  refine coercer_alike (fun _ _ _ _ _ unfolds first second => ?_) mirrors asked asked'
  exact convertAtChoice_alike tables unfolds first second

/-- Any number of steps from a resolved schema, each with any set of references replaced
by their bodies, end in a resolved schema.  It can be walked as well, finds failures at
the same paths, and coerces every value to the same value. -/
theorem references_mean_bodies (r : Resolved) {table : Table} {root : Schema}
    (steps : Relation.ReflTransGen r.table.Step (r.table, r.root) (table, root)) :
    ∃ r' : Resolved, r'.table = table ∧ r'.root = root ∧ ∀ v : Value,
      (∀ (σ : Type) (visit : Visitor σ), (∀ node, TameAt visit node) → ∀ st, ∃ w st',
        ∀ limit, walkLimit r'.table r'.root v ≤ limit →
          (walk r'.table visit limit r'.root v).Gives st w st') ∧
      (∃ found found', (r.failures v).result = .ok found ∧
        (r'.failures v).result = .ok found' ∧
        found.map Failure.path = found'.map Failure.path) ∧
      (∃ valid, (r.isValid v).result = .ok valid ∧ (r'.isValid v).result = .ok valid) ∧
      ∃ w, (r.coerce v).result = .ok w ∧ (r'.coerce v).result = .ok w := by
  obtain ⟨r', same, tables, roots⟩ := r.exists_of_steps steps
  obtain ⟨rfl, rfl⟩ := Prod.mk.inj same
  refine ⟨r', rfl, rfl, fun v => ⟨fun σ visit tame st => r'.exists_gives_walk tame st, ?_, ?_, ?_⟩⟩
  · obtain ⟨_, -, -, collected⟩ := r.exists_failures v
    obtain ⟨_, -, -, collected'⟩ := r'.exists_failures v
    exact ⟨_, _, collected, collected', failures_unfold tables roots collected collected'⟩
  · obtain ⟨_, -, -, collected⟩ := r.exists_failures v
    obtain ⟨_, -, -, collected'⟩ := r'.exists_failures v
    have paths := failures_unfold tables roots collected collected'
    have empty := congrArg List.isEmpty paths
    rw [List.isEmpty_map, List.isEmpty_map] at empty
    exact ⟨_, r.isValid_eq collected, empty ▸ r'.isValid_eq collected'⟩
  · obtain ⟨w, coerced⟩ := r.exists_coerceWithin v
    obtain ⟨w', coerced'⟩ := r'.exists_coerceWithin v
    have same := coerce_unfold tables roots (coerced _ (Nat.le_refl _)) (coerced' _ (Nat.le_refl _))
    exact ⟨w, coerced _ (Nat.le_refl _), same ▸ coerced' _ (Nat.le_refl _)⟩

/-! ### A list of links -/

/-- A link has a label and may have a next link. -/
def linkTo (next : Schema) : Schema := .object
  [⟨"label", false, .primitive ⟨.int, false⟩⟩, ⟨"next", true, next⟩] none

/-- The resolved schema of links. -/
def links : Resolved := ⟨[("link", linkTo (.reference "link"))], .reference "link", rfl⟩

/-- Two links, the labels of which are no integers. -/
def twoLinks : Value := .dict [("label", .bool true), ("next", .dict [("label", .str "x")])]

theorem expands_linkTo {table : Table} {next next' : Schema} (h : table.Expands next next') :
    table.Expands (linkTo next) (linkTo next') :=
  .of_children ⟨rfl, rfl⟩ (.cons (.refl _) (.cons h .nil))

/-- With the root unfolded twice and the body once, two links have failures at the same
two paths, and the first label is coerced in the same way. -/
theorem unfolded_links :
    Relation.ReflTransGen links.table.Step (links.table, links.root)
      ([("link", linkTo (linkTo (.reference "link")))], linkTo (linkTo (.reference "link"))) ∧
    ∃ r' : Resolved, r'.table = [("link", linkTo (linkTo (.reference "link")))] ∧
      r'.root = linkTo (linkTo (.reference "link")) ∧
      (∃ found, (r'.failures twoLinks).result = .ok found ∧ found.map Failure.path =
        [Path.root.key "label", (Path.root.key "next").key "label"]) ∧
      (r'.coerce twoLinks).result =
        .ok (.dict [("label", .int 1), ("next", .dict [("label", .str "x")])]) := by
  have body : links.table.Expands (.reference "link") (linkTo (.reference "link")) := .body rfl
  have first : links.table.Step (links.table, links.root)
      ([("link", linkTo (linkTo (.reference "link")))], linkTo (.reference "link")) :=
    ⟨.cons ⟨rfl, expands_linkTo body⟩ .nil, body⟩
  have second : links.table.Step
      ([("link", linkTo (linkTo (.reference "link")))], linkTo (.reference "link"))
      ([("link", linkTo (linkTo (.reference "link")))], linkTo (linkTo (.reference "link"))) :=
    ⟨.cons ⟨rfl, .refl _⟩ .nil, expands_linkTo body⟩
  have steps := Relation.ReflTransGen.tail (.single first) second
  obtain ⟨r', table, root, same⟩ := references_mean_bodies links steps
  obtain ⟨-, ⟨found, found', collected, collected', paths⟩, -, w, coerced, coerced'⟩ :=
    same twoLinks
  cases collected
  cases coerced
  exact ⟨steps, r', table, root, ⟨found', collected', paths.symm⟩, coerced'⟩

end Resolved

end DataShape
