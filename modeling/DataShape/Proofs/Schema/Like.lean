import Mathlib.Data.List.Forall2
import DataShape.Proofs.Schema.Part

/-!
# Schemas that differ in their literals

`Like R` holds of two schemas that are built in the same way, down to names, kinds
and modifiers, and whose literals are related by `R` pairwise.  It is said with one
rule: the two nodes say the same, and their children are alike one by one.

Equal schemas are those whose literals are equal values (`same_iff_like`).
-/

namespace DataShape

/-- What a field says apart from its schema. -/
def Field.head {α : Type} (f : Field α) : String × Bool := (f.name, f.optional)

namespace Schema

/-- Two nodes say the same, whatever is below them. -/
def Head (R : Value → Value → Prop) : Schema → Schema → Prop
  | .primitive p, .primitive q => p = q
  | .list _, .list _ => True
  | .tuple _, .tuple _ => True
  | .object fs w, .object gs x => fs.map Field.head = gs.map Field.head ∧ w.isSome = x.isSome
  | .choice _, .choice _ => True
  | .named m _, .named n _ => m = n
  | .reference m, .reference n => m = n
  | .literal a, .literal b => R a b
  | _, _ => False

/-- Two schemas are built in the same way from related literals. -/
inductive Like (R : Value → Value → Prop) : Schema → Schema → Prop
  | node {s t : Schema} :
      Head R s t → List.Forall₂ (Like R) s.children t.children → Like R s t

variable {R : Value → Value → Prop} {s t : Schema}

theorem like_iff : Like R s t ↔ Head R s t ∧ List.Forall₂ (Like R) s.children t.children := by
  constructor
  · rintro ⟨head, below⟩
    exact ⟨head, below⟩
  · rintro ⟨head, below⟩
    exact ⟨head, below⟩

/-- Every schema is like itself if every literal is related to itself. -/
theorem like_self (refl : ∀ v, Part (.literal v) s → R v v) : Like R s s := by
  induction s using children_ind with
  | step s ih =>
      refine ⟨?_, List.forall₂_same.2 fun c mem => ih c mem fun v part => refl v (.child mem part)⟩
      cases s with
      | literal v => exact refl v .self
      | _ => simp [Head]

/-! ## Lists that are related item by item -/

section

variable {α β γ δ : Type} {Q : α → β → Prop} {as as' : List α} {bs bs' : List β} {cs : List γ}
  {ds : List δ}

theorem forall₂_iff_forall_zip : List.Forall₂ Q as bs ↔
    as.length = bs.length ∧ ∀ x ∈ as.zip bs, Q x.1 x.2 :=
  List.forall₂_iff_zip.trans <| and_congr_right fun _ =>
    ⟨fun each _ mem => each mem, fun each _ _ mem => each _ mem⟩

theorem exists_mem_zip {b : β} (length : as.length = bs.length) (mem : b ∈ bs) :
    ∃ x ∈ as.zip bs, x.2 = b := by
  have snds : (as.zip bs).map Prod.snd = bs := List.map_snd_zip (Nat.le_of_eq length.symm)
  rw [← snds] at mem
  exact List.mem_map.1 mem

theorem forall₂_imp_of_mem {S : α → β → Prop} (each : ∀ a ∈ as, ∀ b ∈ bs, Q a b → S a b)
    (related : List.Forall₂ Q as bs) : List.Forall₂ S as bs := by
  rw [forall₂_iff_forall_zip] at related ⊢
  refine ⟨related.1, fun x mem => ?_⟩
  obtain ⟨inside, inside'⟩ := List.of_mem_zip mem
  exact each x.1 inside x.2 inside' (related.2 x mem)

/-- A relation along two lists, and one from there along a third list. -/
theorem forall₂_comp {P : β → γ → Prop} {S : α → γ → Prop}
    (first : List.Forall₂ (fun a b => ∀ c, P b c → S a c) as bs)
    (second : List.Forall₂ P bs cs) : List.Forall₂ S as cs := by
  induction first generalizing cs with
  | nil =>
      cases second
      exact .nil
  | cons head _ ih =>
      cases second with
      | cons p second => exact .cons (head _ p) (ih second)

theorem exists_mem_of_forall₂ (related : List.Forall₂ Q as bs) {a : α} (mem : a ∈ as) :
    ∃ b ∈ bs, Q a b := by
  induction related with
  | nil => cases mem
  | cons head _ ih =>
      rcases List.mem_cons.1 mem with rfl | mem
      · exact ⟨_, by simp, head⟩
      · obtain ⟨b, inside, q⟩ := ih mem
        exact ⟨b, by simp [inside], q⟩

theorem exists_of_forall₂ {S : β → α → Prop} {a : α} (backward : List.Forall₂ S bs as)
    (forward : List.Forall₂ Q as bs) (mem : a ∈ as) : ∃ b, S b a ∧ Q a b := by
  induction forward with
  | nil => cases mem
  | cons q _ ih =>
      obtain ⟨s, backward⟩ := List.forall₂_cons.1 backward
      rcases List.mem_cons.1 mem with rfl | mem
      · exact ⟨_, s, q⟩
      · exact ih backward mem

theorem forall₂_append_iff (length : as.length = bs.length) :
    List.Forall₂ Q (as ++ as') (bs ++ bs') ↔
      List.Forall₂ Q as bs ∧ List.Forall₂ Q as' bs' := by
  induction as generalizing bs with
  | nil => simp [List.length_eq_zero_iff.1 length.symm]
  | cons a as ih =>
      cases bs with
      | nil => cases length
      | cons b bs => simp [ih (Nat.succ.inj length), and_assoc]

theorem forall₂_zip {S : γ → δ → Prop} (h : List.Forall₂ Q as bs) (h' : List.Forall₂ S cs ds) :
    List.Forall₂ (fun x y => Q x.1 y.1 ∧ S x.2 y.2) (as.zip cs) (bs.zip ds) := by
  induction h generalizing cs ds with
  | nil => simp
  | cons head _ ih =>
      cases h' with
      | nil => simp
      | cons head' h' => exact .cons ⟨head, head'⟩ (ih h')

theorem forall₂_zipIdx (h : List.Forall₂ Q as bs) (i : Nat) :
    List.Forall₂ (fun x y => Q x.1 y.1 ∧ x.2 = y.2) (as.zipIdx i) (bs.zipIdx i) := by
  induction h generalizing i with
  | nil => exact .nil
  | cons head _ ih => exact .cons ⟨head, rfl⟩ (ih (i + 1))

end

/-! ## Equality -/

section

variable {P : Schema → Schema → Prop} {ss ts : List Schema} {fs gs : List (Field Schema)}
  {w x : Option Schema}

theorem sameAll_iff (each : ∀ s ∈ ss, ∀ t, s.same t = true ↔ P s t) :
    sameAll ss ts = true ↔ List.Forall₂ P ss ts := by
  induction ss generalizing ts with
  | nil => cases ts <;> simp [sameAll]
  | cons s ss ih =>
      obtain ⟨head, rest⟩ := List.forall_mem_cons.1 each
      cases ts <;> simp [sameAll, head, ih rest]

theorem sameFields_iff (each : ∀ f ∈ fs, ∀ t, f.schema.same t = true ↔ P f.schema t) :
    sameFields fs gs = true ↔ fs.map Field.head = gs.map Field.head ∧
      List.Forall₂ P (fs.map Field.schema) (gs.map Field.schema) := by
  induction fs generalizing gs with
  | nil => cases gs <;> simp [sameFields]
  | cons f fs ih =>
      obtain ⟨head, rest⟩ := List.forall_mem_cons.1 each
      obtain ⟨name, optional, s⟩ := f
      cases gs with
      | nil => simp [sameFields]
      | cons g gs =>
          simp only [sameFields, Bool.and_eq_true, beq_iff_eq, head, ih rest, List.map_cons,
            List.cons.injEq, Field.head, Prod.mk.injEq, List.forall₂_cons]
          constructor
          · rintro ⟨⟨here, s⟩, heads, below⟩
            exact ⟨⟨here, heads⟩, s, below⟩
          · rintro ⟨⟨here, heads⟩, s, below⟩
            exact ⟨⟨here, s⟩, heads, below⟩

theorem sameWildcard_iff (each : ∀ s, w = some s → ∀ t, s.same t = true ↔ P s t) :
    sameWildcard w x = true ↔ w.isSome = x.isSome ∧ List.Forall₂ P w.toList x.toList := by
  cases w with
  | none => cases x <;> simp [sameWildcard]
  | some s => cases x <;> simp [sameWildcard, each s rfl]

end

/-- Schemas are equal if they are alike with equal values for literals. -/
theorem same_iff_like : s.same t = true ↔ Like (fun a b => a.same b = true) s t := by
  induction s generalizing t with
  | primitive | reference | literal =>
      rw [like_iff]
      cases t <;> simp [same, Head, children]
  | list _ ih | named _ _ ih =>
      rw [like_iff]
      cases t <;> simp [same, Head, children, ih]
  | tuple _ ih | choice _ ih =>
      rw [like_iff]
      cases t <;> simp [same, Head, children, sameAll_iff fun s mem t => ih s mem]
  | object fields wildcard fieldsIh wildcardIh =>
      rw [like_iff]
      cases t with
      | object fields' wildcard' =>
          rw [same, Bool.and_eq_true, sameFields_iff fun f mem t => fieldsIh f mem,
            sameWildcard_iff fun s eq t => wildcardIh s eq, Head, children, children]
          constructor
          · rintro ⟨⟨heads, fields⟩, wildcards, rest⟩
            exact ⟨⟨heads, wildcards⟩, (forall₂_append_iff fields.length_eq).2 ⟨fields, rest⟩⟩
          · rintro ⟨⟨heads, wildcards⟩, below⟩
            have length := congrArg List.length heads
            obtain ⟨fields, rest⟩ := (forall₂_append_iff (by simpa using length)).1 below
            exact ⟨⟨heads, fields⟩, wildcards, rest⟩
      | _ => simp [same, Head]

end Schema

end DataShape
