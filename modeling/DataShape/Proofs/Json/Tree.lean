import DataShape.Json.Basic

/-!
# Induction over JSON trees

A tree holds other trees as the items of an array or under the keys of an object.
The case of an array speaks of all its items at once, and that of an object of all
its members.
-/

namespace DataShape

/-- Induction over JSON trees with one case for each constructor. -/
@[induction_eliminator]
theorem Json.ind {motive : Json → Prop}
    (null : motive .null) (bool : ∀ b, motive (.bool b)) (number : ∀ n, motive (.number n))
    (string : ∀ s, motive (.string s))
    (array : ∀ items, (∀ d ∈ items, motive d) → motive (.array items))
    (object : ∀ members, (∀ m ∈ members, motive m.2) → motive (.object members)) :
    ∀ d, motive d := fun d =>
  @Json.rec motive (fun items => ∀ d ∈ items, motive d) (fun members => ∀ m ∈ members, motive m.2)
    (fun m => motive m.2)
    null bool number string array object
    (fun _ h => nomatch h)
    (fun _ _ head tail _ h => by
      rcases List.mem_cons.1 h with rfl | h
      · exact head
      · exact tail _ h)
    (fun _ h => nomatch h)
    (fun _ _ head tail _ h => by
      rcases List.mem_cons.1 h with rfl | h
      · exact head
      · exact tail _ h)
    (fun _ _ body => body) d

end DataShape
