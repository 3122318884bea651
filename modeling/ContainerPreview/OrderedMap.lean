/-!
# Ordered maps

A map from names to values whose entries keep the order in which their names
were first given.  A name has one value only, the last one given for it.
-/

namespace ContainerPreview

/-- The entries of a map, in order. -/
abbrev OrderedMap (β : Type) := List (String × β)

namespace OrderedMap

variable {β : Type}

/-- Gives `name` the value `value`, in its place if it is there already. -/
def put (name : String) (value : β) : OrderedMap β → OrderedMap β
  | [] => [(name, value)]
  | entry :: entries =>
      if entry.1 == name then (name, value) :: entries else entry :: put name value entries

/-- The map after its entries have been put into it one after another. -/
def putAll (map entries : OrderedMap β) : OrderedMap β :=
  entries.foldl (fun map entry => put entry.1 entry.2 map) map

/-- The map with the given entries. -/
def ofEntries (entries : OrderedMap β) : OrderedMap β :=
  putAll [] entries

/-- The value of a name. -/
def value? (map : OrderedMap β) (name : String) : Option β :=
  List.lookup name map

@[simp]
theorem value?_put_self (map : OrderedMap β) (name : String) (value : β) :
    value? (put name value map) name = some value := by
  induction map with
  | nil => simp [put, value?]
  | cons entry entries inductionHypothesis =>
      obtain ⟨other, old⟩ := entry
      simp only [value?] at inductionHypothesis
      by_cases same : other = name
      · simp [put, value?, same]
      · simp [put, value?, same, List.lookup_cons, beq_false_of_ne (Ne.symm same),
          inductionHypothesis]

/-- Putting an entry leaves the values of all other names alone. -/
theorem value?_put_of_ne {name other : String} (different : other ≠ name) (map : OrderedMap β)
    (value : β) : value? (put name value map) other = value? map other := by
  induction map with
  | nil => simp [put, value?, List.lookup_cons, beq_false_of_ne different]
  | cons entry entries inductionHypothesis =>
      obtain ⟨key, old⟩ := entry
      simp only [value?] at inductionHypothesis
      by_cases same : key = name
      · subst same
        simp [put, value?, List.lookup_cons, beq_false_of_ne different]
      · simp [put, value?, same, List.lookup_cons, inductionHypothesis]

end OrderedMap

end ContainerPreview
