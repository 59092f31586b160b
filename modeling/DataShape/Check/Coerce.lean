import DataShape.Check.Convert
import DataShape.Check.Validate

/-!
# Coercion

The coercer is a visitor that converts scalars to the kind their schema asks
for.  What cannot be converted stays as it is, so a validation afterwards still
finds it.

At a choice a value stays as it is if it meets an alternative.  Otherwise the
first alternative that converts it wins.  Only primitives convert, and choices
nested in the choice.
-/

namespace DataShape

/-- The first conversion that an alternative offers. -/
def firstConversion (convert : Schema → Report (Option Value)) :
    List Schema → Report (Option Value)
  | [] => pure none
  | alternative :: rest => do
      match ← convert alternative with
      | some value => return some value
      | none => firstConversion convert rest

/-- The conversion of a value at a choice, or `none` if the value meets an
alternative or no alternative converts it. -/
def convertAtChoice (table : Table) : (limit : Nat) → List Schema → Value →
    Report (Option Value)
  | 0, _, _ => .ofExcept (.error .limit)
  | limit + 1, alternatives, value => do
      if ← anyMet (satisfies table limit) value alternatives then return none
      firstConversion (fun alternative => do
        match ← Report.ofExcept ((table.resolve alternative).mapError .definition) with
        | .primitive p => return p.kind.convert? value
        | .choice nested => convertAtChoice table limit nested value
        | _ => return none) alternatives

/-- Convert scalars.  `convertChoice` gives the conversion at a choice. -/
def coercer (convertChoice : List Schema → Value → Report (Option Value)) : Visitor Unit :=
  fun node => do
    let converted ← match node.schema with
      | some (.primitive p) => pure (p.kind.convert? node.value)
      | some (.choice alternatives) => Run.ofReport (convertChoice alternatives node.value)
      | _ => pure none
    match converted with
    | some value => do
        Run.emit (.coerced node.path node.value value)
        return .replace value
    | none => return .keep

/-- Coerce a value under a schema of a table. -/
def coerceWithin (table : Table) (limit : Nat) (schema : Schema) (value : Value) :
    Report Value :=
  Prod.fst <$> (walk table (coercer (convertAtChoice table limit)) limit schema value).start ()

namespace Resolved

/-- The value with every scalar converted that can be. -/
def coerce (r : Resolved) (value : Value) : Report Value :=
  coerceWithin r.table (walkLimit r.table r.root value) r.root value

end Resolved

/-- The value with every scalar converted that can be. -/
def Schema.coerce (s : Schema) (value : Value) : Report Value := do
  (← s.resolve).coerce value

end DataShape
