import ContainerPreview.Forest.Basic

/-!
# The attributes of a node

A node has attributes of three sorts.  Its links, its file and the fields of its
kind are its own.  Under further names it has what its class gives to every
node of the kind: operations, bookkeeping, and what belongs to every object; a
value assigned there covers the one of the class.  And some attributes are
computed, or take values of a special sort only, and refuse to be assigned.

In a copy every attribute can be overwritten that can be assigned, the links
aside.  No attribute is called "self", which stands for the node itself.
-/

namespace ContainerPreview

namespace Kind

/-- The name of the class of a kind. -/
def className : Kind → String
  | .generic => "Node"
  | .container => "Container"
  | .leaf (.declaration _) => "Declaration"
  | .leaf (.comment _) => "Comment"
  | .block .sheet => "Root"
  | .block (.rule _) => "Rule"
  | .block (.atRule _ _ _) => "AtRule"

/-- The fields of a kind. -/
def fieldNames : Kind → List String
  | .generic | .container | .block .sheet => []
  | .leaf (.declaration _) => ["prop", "value", "important"]
  | .leaf (.comment _) => ["text"]
  | .block (.rule _) => ["selector"]
  | .block (.atRule _ _ _) => ["name", "params", "has_block"]

/-- The links of a node that is no container are that to its parent, and those
of a container are also those to its children. -/
def linkNames (kind : Kind) : List String :=
  if kind.isContainer then ["parent", "nodes"] else ["parent"]

/-- The attributes that are computed whenever they are looked up. -/
def computedNames : Kind → List String
  | .generic | .leaf _ => []
  | .container | .block .sheet | .block (.atRule _ _ _) => ["first", "last"]
  | .block (.rule _) => ["first", "last", "selectors"]

/-- What every node has from its class. -/
def nodeNames : List String :=
  ["type", "root", "next", "prev", "before", "after", "replace_with", "remove", "clone", "_copy",
    "_require_parent", "to_css"]

/-- What every container has beside that. -/
def containerNames : List String :=
  ["_iterator_ids", "_indexes", "index", "_adopt", "append", "prepend", "insert_before",
    "insert_after", "remove_child", "each", "walk", "walk_decls", "walk_rules", "walk_at_rules",
    "iter_decls", "_copy_children_into", "_block"]

/-- What every object has and can be assigned. -/
def objectNames : List String :=
  ["__delattr__", "__dir__", "__doc__", "__eq__", "__format__", "__ge__", "__getattribute__",
    "__getstate__", "__gt__", "__hash__", "__init__", "__init_subclass__", "__le__", "__lt__",
    "__module__",
    "__ne__", "__new__", "__reduce__", "__reduce_ex__", "__repr__", "__setattr__", "__sizeof__",
    "__str__", "__subclasshook__"]

/-- What every object has and can be assigned values of a special sort only. -/
def specialNames : List String :=
  ["__class__", "__dict__"]

/-- A node of this kind has an attribute of the given name. -/
def hasAttribute (kind : Kind) (name : String) : Bool :=
  kind.linkNames.contains name || name == "source" || kind.fieldNames.contains name ||
    kind.computedNames.contains name || nodeNames.contains name ||
    (kind.isContainer && containerNames.contains name) || objectNames.contains name ||
    specialNames.contains name || name == "__weakref__"

end Kind

namespace Forest

/-! ## Assigning attributes -/

/-- A kind of node with the field of the given name overwritten, if it has such a
field. -/
def setContent? (kind : Kind) (field : String) (value : FieldValue) : Option Kind :=
  match kind, field with
  | .leaf (.declaration content), "prop" =>
      some (.leaf (.declaration { content with property := value.asText }))
  | .leaf (.declaration content), "value" =>
      some (.leaf (.declaration { content with value := value.asText }))
  | .leaf (.declaration content), "important" =>
      some (.leaf (.declaration { content with important := value.asFlag }))
  | .leaf (.comment _), "text" => some (.leaf (.comment value.asText))
  | .block (.rule _), "selector" => some (.block (.rule value.asText))
  | .block (.atRule _ params hasBlock), "name" =>
      some (.block (.atRule value.asText params hasBlock))
  | .block (.atRule name _ hasBlock), "params" =>
      some (.block (.atRule name value.asText hasBlock))
  | .block (.atRule name params _), "has_block" =>
      some (.block (.atRule name params value.asFlag))
  | _, _ => none

/-- A node with the field of the given name overwritten, if it has such a
field. -/
def setField? (cell : Cell) (field : String) (value : FieldValue) : Option Cell :=
  if field == "source" then some { cell with source := value.asSource }
  else (setContent? cell.kind field value).map fun kind => { cell with kind }

/-- A node with a value assigned to an attribute that is none of its links.  What
is no field is covered. -/
def setAttribute (cell : Cell) (name : String) (value : FieldValue) : Except EditError Cell :=
  match setField? cell name value with
  | some changed => .ok changed
  | none =>
      if cell.kind.computedNames.contains name || name == "__weakref__" then
        .error (.readOnly name cell.kind.className)
      else if Kind.specialNames.contains name then .error (.wrongSort name value.sortName)
      else .ok { cell with covers := (name, value) :: cell.covers }

/-- A copy of a node of the given name with an attribute overwritten, which must
not be one of its links. -/
def overwrite (kindName : String) (cell : Cell) (name : String) (value : FieldValue) :
    Except EditError Cell :=
  if !cell.kind.hasAttribute name || ["parent", "nodes"].contains name then
    .error (.cannotOverride name kindName)
  else setAttribute cell name value

end Forest

end ContainerPreview
