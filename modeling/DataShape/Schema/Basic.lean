import DataShape.Value.Basic

/-!
# Schemas

A schema describes the shape of a value.  Names make schemas recursive:
`named` gives its body a name, and `reference` stands for the body of that name.
A reference holds only the name, so a schema is a finite tree.

An object schema lists its declared keys in order.  The wildcard, if there is
one, describes every other key.  A declared key wins over the wildcard, and the
first of several declarations of one key wins over the later ones.

`same` is equality with literals compared as values.
-/

namespace DataShape

/-! ## Primitives -/

/-- The four scalar kinds a schema can ask for. -/
inductive Kind where
  | int
  | float
  | str
  | bool
deriving DecidableEq, Repr, Inhabited

namespace Kind

/-- The name of a kind in definitions and diagnostics. -/
def name : Kind → String
  | .int => "int"
  | .float => "float"
  | .str => "str"
  | .bool => "bool"

/-- The kind with a name. -/
def ofName? (s : String) : Option Kind :=
  if s = "int" then some .int
  else if s = "float" then some .float
  else if s = "str" then some .str
  else if s = "bool" then some .bool
  else none

/-- Whether a value is exactly of a kind. -/
def accepts : Kind → Value → Bool
  | .int, .int _ => true
  | .float, .float _ => true
  | .str, .str _ => true
  | .bool, .bool _ => true
  | _, _ => false

theorem ofName?_name (k : Kind) : ofName? k.name = some k := by cases k <;> rfl

theorem ofName?_eq_some {s : String} {k : Kind} (h : ofName? s = some k) : k.name = s := by
  unfold ofName? at h
  repeat' split at h
  all_goals cases h <;> simp_all [name]

end Kind

/-- A scalar kind, with or without null. -/
structure Primitive where
  kind : Kind
  nullable : Bool
deriving DecidableEq, Repr, Inhabited

/-! ## Schemas -/

/-- A declared key of an object. -/
structure Field (α : Type) where
  name : String
  optional : Bool
  schema : α

/-- The shape of a value. -/
inductive Schema where
  | primitive (p : Primitive)
  | list (element : Schema)
  | tuple (elements : List Schema)
  | object (fields : List (Field Schema)) (wildcard : Option Schema)
  | choice (alternatives : List Schema)
  | named (name : String) (body : Schema)
  | reference (name : String)
  | literal (value : Value)
deriving Inhabited

/-- The first declaration of a key. -/
def Field.find? {α : Type} (key : String) : List (Field α) → Option (Field α)
  | [] => none
  | field :: rest => if field.name = key then some field else find? key rest

/-- A key is declared exactly if it is the name of a field. -/
theorem Field.find?_isSome_iff {α : Type} {key : String} {fields : List (Field α)} :
    (find? key fields).isSome = true ↔ key ∈ fields.map Field.name := by
  induction fields with
  | nil => simp [find?]
  | cons f fields ih =>
      rw [find?]
      by_cases same : f.name = key
      · simp [same]
      · rw [if_neg same, ih, List.map_cons, List.mem_cons]
        exact ⟨.inr, fun h => h.resolve_left (Ne.symm same)⟩

namespace Schema

/-- What an object declares for a key: its field, else the wildcard. -/
def forKey? (fields : List (Field Schema)) (wildcard : Option Schema) (key : String) :
    Option Schema :=
  match Field.find? key fields with
  | some field => some field.schema
  | none => wildcard

/-- Whether a schema admits null by being a nullable primitive. -/
def nullable : Schema → Bool
  | .primitive p => p.nullable
  | _ => false

/-! ## Equality -/

mutual

/-- Whether two schemas are equal. -/
def same : Schema → Schema → Bool
  | .primitive p, .primitive q => p == q
  | .list s, .list t => same s t
  | .tuple ss, .tuple ts => sameAll ss ts
  | .object fs w, .object gs x => sameFields fs gs && sameWildcard w x
  | .choice ss, .choice ts => sameAll ss ts
  | .named m s, .named n t => m == n && same s t
  | .reference m, .reference n => m == n
  | .literal a, .literal b => a.same b
  | _, _ => false
termination_by structural s _ => s

/-- Whether two lists of schemas are equal. -/
def sameAll : List Schema → List Schema → Bool
  | [], [] => true
  | s :: ss, t :: ts => same s t && sameAll ss ts
  | _, _ => false
termination_by structural ss _ => ss

/-- Whether two lists of fields are equal. -/
def sameFields : List (Field Schema) → List (Field Schema) → Bool
  | [], [] => true
  | ⟨name, optional, s⟩ :: fs, g :: gs =>
      name == g.name && optional == g.optional && same s g.schema && sameFields fs gs
  | _, _ => false
termination_by structural fs _ => fs

/-- Whether two wildcards are equal. -/
def sameWildcard : Option Schema → Option Schema → Bool
  | none, none => true
  | some s, some t => same s t
  | _, _ => false
termination_by structural w _ => w

end

/-! ## Size -/

mutual

/-- The number of nodes of a schema. -/
def size : Schema → Nat
  | .list s => size s + 1
  | .tuple ss => sizeAll ss + 1
  | .object fs w => sizeFields fs + sizeWildcard w + 1
  | .choice ss => sizeAll ss + 1
  | .named _ s => size s + 1
  | _ => 1

/-- The number of nodes of several schemas. -/
def sizeAll : List Schema → Nat
  | [] => 0
  | s :: ss => size s + sizeAll ss

/-- The number of nodes of the schemas of fields. -/
def sizeFields : List (Field Schema) → Nat
  | [] => 0
  | ⟨_, _, s⟩ :: fs => size s + sizeFields fs

/-- The number of nodes of a wildcard. -/
def sizeWildcard : Option Schema → Nat
  | none => 0
  | some s => size s

end

end Schema

end DataShape
