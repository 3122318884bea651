import ContainerPreview.Value.Converter

/-!
# How deep calls nest

Conversion goes into the bodies of calls and into the calls in those, each time
one level deeper.  Calls that stand side by side are no deeper than one of them.
-/

namespace ContainerPreview

namespace Value

open Text

/-- The texts in a call that are converted on their own. -/
def Call.parts (call : Call) : List (List Char) :=
  match call.function with
  | .calc => [call.body]
  | .clamp => (splitTopLevel ',' call.body).map trim

theorem Call.length_le_of_mem_parts {call : Call} {part : List Char} (member : part ∈ call.parts) :
    part.length ≤ call.body.length := by
  unfold parts at member
  split at member
  · exact Nat.le_of_eq (congrArg List.length (List.mem_singleton.mp member))
  · obtain ⟨argument, isArgument, rfl⟩ := List.mem_map.mp member
    exact Nat.le_trans (length_trim_le argument) (length_le_of_mem_splitTopLevel isArgument)

namespace Scheme

/-- How many calls deep the conversion of a text without literals goes.  It does
not go into a sum that it turns around. -/
def callDepth (scheme : Scheme) (text : List Char) : Nat :=
  match _found : firstCall? text with
  | none => 0
  | some call =>
      let inside := call.parts.attach.map fun ⟨part, _member⟩ =>
        if (scheme.turnSum? part).isSome then 0 else callDepth scheme part
      max (inside.foldr max 0 + 1) (callDepth scheme call.after)
termination_by text.length
decreasing_by
  · exact Nat.lt_of_le_of_lt (Call.length_le_of_mem_parts _member) (length_of_firstCall? _found).1
  · exact (length_of_firstCall? _found).2

/-- How many calls deep the conversion of a stretch of a value goes. -/
def spanDepth (scheme : Scheme) : Span → Nat
  | .free text => scheme.callDepth text
  | .literal _ => 0

/-- How many calls deep the conversion of a value goes. -/
def depth (scheme : Scheme) (value : List Char) : Nat :=
  ((spans value).map scheme.spanDepth).foldr max 0

end Scheme

end Value

/-- How many calls deep the conversion of the value of a property goes. -/
def Converter.depthFor (converter : Converter) (property value : String) : Nat :=
  (converter.schemeFor property).depth value.toList

end ContainerPreview
