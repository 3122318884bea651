import ContainerPreview.Proofs.Sheet.Origin

/-!
# Trees that keep their keyframes

Nodes may be put into a tree, and selector lists of its rules may be changed, but every node
stays in the block that it is in, in its order.  What becomes of the rules directly in
keyframes is told exactly: none is put in, and the selector list of each is changed as the
outermost media block around it says.

Trees that keep their keyframes twice do so with one change upon the other.
-/

namespace ContainerPreview

/-- Where nodes stand: the outermost media block around them, if there is one, and whether
they are directly in keyframes. -/
structure Site where
  media : Option Head
  inKeyframes : Bool

namespace Site

/-- Nodes of a sheet, in no other block. -/
def top : Site :=
  { media := none, inKeyframes := false }

/-- The site of the children of a block. -/
def within (site : Site) (head : Head) : Site :=
  { media := site.media.or (if head.isMedia then some head else none),
    inKeyframes := head.isKeyframes }

end Site

/-- The nodes `before` are all among the nodes `after`, in the same blocks and in their order,
with all that is written in them but for selector lists.  No rule is put in directly in
keyframes, and for the rules that are there `change` tells the selector list afterwards from
the outermost media block and the one before. -/
inductive KeepsFrames (change : Option Head → String → String) :
    Site → List Node → List Node → Prop
  | nil {site : Site} : KeepsFrames change site [] []
  /-- A node is put in. -/
  | added {site : Site} {node : Node} {before after : List Node}
      (noFrame : site.inKeyframes → node.isRule = false)
      (ofRest : KeepsFrames change site before after) :
      KeepsFrames change site before (node :: after)
  /-- A leaf stays as it is. -/
  | leaf {site : Site} {source : Option String} {content : Leaf} {before after : List Node}
      (ofRest : KeepsFrames change site before after) :
      KeepsFrames change site (.leaf source content :: before) (.leaf source content :: after)
  /-- A rule stays, with a selector list that is told if it is directly in keyframes. -/
  | rule {site : Site} {source : Option String} {selector selector' : String}
      {settled settled' : Bool} {children children' before after : List Node}
      (ofSelector : site.inKeyframes → selector' = change site.media selector)
      (ofChildren : KeepsFrames change (site.within (.rule selector)) children children')
      (ofRest : KeepsFrames change site before after) :
      KeepsFrames change site (.block source (.rule selector) settled children :: before)
        (.block source (.rule selector') settled' children' :: after)
  /-- Another block stays with its head. -/
  | block {site : Site} {source : Option String} {head : Head} {settled settled' : Bool}
      {children children' before after : List Node} (noRule : ∀ selector, head ≠ .rule selector)
      (ofChildren : KeepsFrames change (site.within head) children children')
      (ofRest : KeepsFrames change site before after) :
      KeepsFrames change site (.block source head settled children :: before)
        (.block source head settled' children' :: after)

namespace KeepsFrames

variable {change : Option Head → String → String} {site : Site}

/-- Without a change, nodes keep their keyframes as they are. -/
theorem refl (site : Site) (nodes : List Node) :
    KeepsFrames (fun _ selector => selector) site nodes nodes := by
  induction nodes using forest_induction generalizing site with
  | nil => exact .nil
  | leaf source content rest ofRest => exact .leaf (ofRest site)
  | block source head settled children rest ofChildren ofRest =>
      cases head with
      | sheet => exact .block (by simp) (ofChildren _) (ofRest site)
      | rule selector => exact .rule (fun _ => rfl) (ofChildren _) (ofRest site)
      | atRule name params hasBlock => exact .block (by simp) (ofChildren _) (ofRest site)

/-- Nodes are put in where there were none. -/
theorem ofAdded {added : List Node}
    (noFrames : site.inKeyframes → ∀ node ∈ added, node.isRule = false) :
    KeepsFrames change site [] added := by
  induction added with
  | nil => exact .nil
  | cons node rest inductionHypothesis =>
      refine .added (fun inKeyframes => noFrames inKeyframes node List.mem_cons_self) ?_
      exact inductionHypothesis fun inKeyframes other member =>
        noFrames inKeyframes other (List.mem_cons_of_mem node member)

theorem append {left left' right right' : List Node} (ofLeft : KeepsFrames change site left left')
    (ofRight : KeepsFrames change site right right') :
    KeepsFrames change site (left ++ right) (left' ++ right') := by
  induction ofLeft with
  | nil => exact ofRight
  | added noFrame _ inductionHypothesis => exact .added noFrame (inductionHypothesis ofRight)
  | leaf _ inductionHypothesis => exact .leaf (inductionHypothesis ofRight)
  | rule ofSelector ofChildren _ _ inductionHypothesis =>
      exact .rule ofSelector ofChildren (inductionHypothesis ofRight)
  | block noRule ofChildren _ _ inductionHypothesis =>
      exact .block noRule ofChildren (inductionHypothesis ofRight)

/-- One change upon the other.  The induction is on the second: a node that it keeps may have
been put in by the first. -/
theorem trans {change' : Option Head → String → String} {before between after : List Node}
    (first : KeepsFrames change site before between)
    (second : KeepsFrames change' site between after) :
    KeepsFrames (fun media selector => change' media (change media selector)) site before
      after := by
  induction second generalizing before with
  | nil =>
      cases first with
      | nil => exact .nil
  | added noFrame _ inductionHypothesis => exact .added noFrame (inductionHypothesis first)
  | leaf _ inductionHypothesis =>
      cases first with
      | added noFrame ofRest => exact .added noFrame (inductionHypothesis ofRest)
      | leaf ofRest => exact .leaf (inductionHypothesis ofRest)
  | rule ofSelector _ _ ofChildren inductionHypothesis =>
      cases first with
      | added noFrame ofRest =>
          exact .added noFrame (inductionHypothesis ofRest)
      | rule ofSelector' ofChildren' ofRest =>
          refine .rule (fun inKeyframes => ?_) (ofChildren ofChildren') (inductionHypothesis ofRest)
          rw [ofSelector inKeyframes, ofSelector' inKeyframes]
      | block noRule => exact absurd rfl (noRule _)
  | block noRule _ _ ofChildren inductionHypothesis =>
      cases first with
      | added noFrame ofRest =>
          exact .added (fun _ => isRule_block_eq_false noRule) (inductionHypothesis ofRest)
      | rule => exact absurd rfl (noRule _)
      | block _ ofChildren' ofRest =>
          exact .block noRule (ofChildren ofChildren') (inductionHypothesis ofRest)

/-- If nodes without marks keep their keyframes, so do they with any marks, whatever becomes
of the marks. -/
theorem of_clearMarksIn {original after : List Node}
    (keeps : KeepsFrames change site (clearMarksIn original) after) :
    KeepsFrames change site original (clearMarksIn after) := by
  generalize marked : clearMarksIn original = before at keeps
  induction keeps generalizing original with
  | nil =>
      cases original with
      | nil => exact .nil
      | cons => cases marked
  | @added site node _ _ noFrame _ ofRest =>
      refine .added (fun inKeyframes => ?_) (ofRest marked)
      rw [isRule_clearMarks]
      exact noFrame inKeyframes
  | leaf _ ofRest =>
      rcases original with _ | ⟨⟨⟩ | ⟨⟩, rest⟩ <;> cases marked
      exact .leaf (ofRest rfl)
  | rule ofSelector _ _ ofChildren ofRest =>
      rcases original with _ | ⟨⟨⟩ | ⟨⟩, rest⟩ <;> cases marked
      exact .rule ofSelector (ofChildren rfl) (ofRest rfl)
  | block noRule _ _ ofChildren ofRest =>
      rcases original with _ | ⟨⟨⟩ | ⟨⟩, rest⟩ <;> cases marked
      exact .block noRule (ofChildren rfl) (ofRest rfl)

end KeepsFrames

end ContainerPreview
