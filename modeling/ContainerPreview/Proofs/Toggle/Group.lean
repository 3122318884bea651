import ContainerPreview.Proofs.Toggle.MediaOutcome

/-!
# Groups of a media nest

The groups of a media block are those of the nest in it: one of its own nodes, and
those of the media blocks among them.  The nodes of a group are nodes of the nest,
so that what holds throughout the nest holds in every group.
-/

namespace ContainerPreview

open List

/-- What the nodes of a media block group: themselves, and what is grouped by the
media blocks among them. -/
def nestGroups (hook : Option Media.Hook) (conditions : List String) (nodes : List Node) :
    List MediaGroup :=
  { conditions, nodes } :: mediaGroupsIn hook conditions nodes

variable {hook : Option Media.Hook} {conditions : List String} {source : Option String}
  {params : String} {hasBlock settled : Bool} {group : MediaGroup} {node : Node}
  {children nodes rest : List Node}

theorem mediaGroupsIn_media_of_none (never : (Media.conditions hook params).value = none) :
    mediaGroupsIn hook conditions
        (.block source (.atRule "media" params hasBlock) settled children :: rest) =
      mediaGroupsIn hook conditions rest := by
  simp [mediaGroupsIn, Node.mediaGroups, never]

theorem mediaGroupsIn_media_of_some {own : List String}
    (holds : (Media.conditions hook params).value = some own) :
    mediaGroupsIn hook conditions
        (.block source (.atRule "media" params hasBlock) settled children :: rest) =
      nestGroups hook (Media.combine conditions own) children ++
        mediaGroupsIn hook conditions rest := by
  simp [mediaGroupsIn, Node.mediaGroups, holds, nestGroups]

theorem mediaGroupsIn_other (isOther : node.isMedia = false) :
    mediaGroupsIn hook conditions (node :: rest) = mediaGroupsIn hook conditions rest := by
  simp [mediaGroupsIn, node.mediaGroups_of_not_isMedia hook conditions isOther]

/-- The groups of a media block are those of the nest in it, under some
conditions. -/
theorem exists_mem_nestGroups
    (member : group ∈ (Node.block source (.atRule "media" params hasBlock) settled
      nodes).mediaGroups hook conditions) : ∃ own, group ∈ nestGroups hook own nodes := by
  rw [Node.mediaGroups] at member
  split at member
  · cases member
  · exact ⟨_, member⟩

/-- The nodes of a group are among those of the nest, in the same order. -/
theorem descendantsIn_sublist_of_mem (member : group ∈ mediaGroupsIn hook conditions nodes) :
    descendantsIn group.nodes <+ descendantsIn nodes := by
  induction nodes using nest_induction generalizing conditions with
  | nil => cases member
  | media source params hasBlock settled children rest ofChildren ofRest =>
      rw [descendantsIn_block]
      cases holds : (Media.conditions hook params).value with
      | none =>
          rw [mediaGroupsIn_media_of_none holds] at member
          exact ((ofRest member).trans (sublist_append_right _ _)).cons _
      | some own =>
          rw [mediaGroupsIn_media_of_some holds, nestGroups, mem_append, mem_cons] at member
          rcases member with (rfl | inner) | later
          · exact (sublist_append_left _ _).cons _
          · exact ((ofChildren inner).trans (sublist_append_left _ _)).cons _
          · exact ((ofRest later).trans (sublist_append_right _ _)).cons _
  | other node rest isOther ofRest =>
      rw [mediaGroupsIn_other isOther] at member
      exact (ofRest member).trans (sublist_append_right (node :: node.descendants) _)

theorem descendantsIn_sublist_of_mem_nest (member : group ∈ nestGroups hook conditions nodes) :
    descendantsIn group.nodes <+ descendantsIn nodes := by
  rcases mem_cons.mp member with rfl | inner
  · exact .refl _
  · exact descendantsIn_sublist_of_mem inner

/-- What holds of all nodes of a nest holds of all nodes of a group. -/
theorem forall_descendantsIn_of_group {P : Node → Prop} (holds : ∀ node ∈ descendantsIn nodes, P node)
    (member : group ∈ nestGroups hook conditions nodes) : ∀ node ∈ descendantsIn group.nodes, P node :=
  fun node inGroup => holds node ((descendantsIn_sublist_of_mem_nest member).subset inGroup)

/-- The nodes of every group of a nest are those of a media block. -/
theorem MediaNodes.of_group (shape : MediaNodes nodes)
    (member : group ∈ nestGroups hook conditions nodes) : MediaNodes group.nodes where
  flat := forall_descendantsIn_of_group shape.flat member
  outermost := forall_descendantsIn_of_group shape.outermost member
  noSheet := forall_descendantsIn_of_group shape.noSheet member
  unmarked := forall_descendantsIn_of_group shape.unmarked member

end ContainerPreview
