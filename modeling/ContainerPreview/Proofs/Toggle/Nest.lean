import ContainerPreview.Proofs.Sheet.Shape

/-!
# Treating the nodes of a media block

The nodes of a media block are of two kinds: media blocks, which are treated
along with the block, and all others.  `nest_induction` follows this division,
and the lemmas on `treatNodes` state its step for each kind.
-/

namespace ContainerPreview

/-- Induction on the nodes of a media block: a media block, which has nodes of
its own, or a node of another kind stands in front of further nodes. -/
theorem nest_induction {motive : List Node → Prop} (nil : motive [])
    (media : ∀ source params hasBlock settled children rest, motive children → motive rest →
      motive (.block source (.atRule "media" params hasBlock) settled children :: rest))
    (other : ∀ node rest, node.isMedia = false → motive rest → motive (node :: rest)) :
    ∀ nodes, motive nodes := by
  intro nodes
  induction nodes using forest_induction with
  | nil => exact nil
  | leaf source content rest ofRest => exact other _ rest rfl ofRest
  | block source head settled children rest ofChildren ofRest =>
      cases isMedia : head.isMedia with
      | false => exact other _ rest (by simpa [Node.isMedia, Node.head?] using isMedia) ofRest
      | true =>
          cases head with
          | sheet => cases isMedia
          | rule selector => cases isMedia
          | atRule name params hasBlock =>
              have isName : name = "media" := by simpa [Head.isMedia] using isMedia
              subst isName
              exact media source params hasBlock settled children rest ofChildren ofRest

namespace Toggle

variable (toggle : Toggle)

/-- A media block that never holds on a screen is marked along with the media
blocks in it. -/
theorem treatNode_media_of_none {params : String} (conditions : List String)
    (around source : Option String) (hasBlock settled : Bool) (children : List Node)
    (never : (Media.conditions toggle.hook params).value = none) :
    treatNode toggle conditions around
        (.block source (.atRule "media" params hasBlock) settled children) =
      { nodes := [.block source (.atRule "media" params hasBlock) true (settleMediaIn children)],
        readings := (Media.conditions toggle.hook params).events } := by
  simp [treatNode, never]

/-- A media block that may hold is treated under its conditions along with those
around it. -/
theorem treatNode_media_of_some {params : String} {own : List String} (conditions : List String)
    (around source : Option String) (hasBlock settled : Bool) (children : List Node)
    (holds : (Media.conditions toggle.hook params).value = some own) :
    treatNode toggle conditions around
        (.block source (.atRule "media" params hasBlock) settled children) =
      (treatNodes toggle (Media.combine conditions own) source children).ofBlock
        (Media.combine conditions own) source (.atRule "media" params hasBlock)
        (Media.conditions toggle.hook params).events := by
  simp [treatNode, holds]

theorem treatNode_other {node : Node} (conditions : List String) (around : Option String)
    (isOther : node.isMedia = false) :
    treatNode toggle conditions around node =
      if node.isTreated then toggle.treat conditions around node else .keep node := by
  cases node with
  | leaf source content => simp [treatNode, Node.isTreated]
  | block source head settled children =>
      unfold treatNode
      split
      · simp [Node.isMedia, Node.head?, Head.isMedia] at isOther
      · rfl

@[simp]
theorem treatNodes_nil (conditions : List String) (around : Option String) :
    treatNodes toggle conditions around [] = {} :=
  rfl

@[simp]
theorem treatNodes_cons (conditions : List String) (around : Option String) (node : Node)
    (nodes : List Node) :
    treatNodes toggle conditions around (node :: nodes) =
      (treatNode toggle conditions around node).append
        (treatNodes toggle conditions around nodes) :=
  rfl

namespace Treatment

variable (left right treatment : Treatment)

@[simp]
theorem nodes_append : (left.append right).nodes = left.nodes ++ right.nodes :=
  rfl

@[simp]
theorem readings_append : (left.append right).readings = left.readings ++ right.readings :=
  rfl

@[simp]
theorem copies_append : (left.append right).copies = left.copies ++ right.copies :=
  rfl

@[simp]
theorem events_append : (left.append right).events = left.events ++ right.events :=
  rfl

@[simp]
theorem containers_append :
    (left.append right).containers = left.containers ++ right.containers :=
  rfl

@[simp]
theorem innerEvents_append :
    (left.append right).innerEvents = left.innerEvents ++ right.innerEvents :=
  rfl

/-- The container blocks of a treatment: one of its own if it has copies, then
those of the blocks in it. -/
theorem allContainers_eq (conditions : List String) :
    treatment.allContainers conditions =
      (if treatment.copies.isEmpty then []
        else [.block none (.atRule "container" (String.intercalate ", " conditions) true) true
          treatment.copies]) ++ treatment.containers := by
  unfold allContainers
  split <;> rfl

end Treatment

/-- Only the media blocks among the nodes have container blocks. -/
theorem containers_treatNode_other {node : Node} (conditions : List String)
    (around : Option String) (isOther : node.isMedia = false) :
    (treatNode toggle conditions around node).containers = [] := by
  rw [treatNode_other _ _ _ isOther]
  split
  · rw [treat]
    split <;> rfl
  · rfl

/-- The copies for the container block are those of the treated nodes.  A media block among the
nodes has a container block of its own. -/
theorem copies_treatNodes (conditions : List String) (around : Option String)
    (nodes : List Node) :
    (treatNodes toggle conditions around nodes).copies =
      if conditions.isEmpty then []
      else (nodes.filter Node.isTreated).flatMap fun node => (toggle.previewCopy node).value := by
  induction nodes using nest_induction with
  | nil => simp
  | media source params hasBlock settled children rest ofChildren ofRest =>
      have untreated : (Node.block source (.atRule "media" params hasBlock) settled
          children).isTreated = false := rfl
      have noCopies : (treatNode toggle conditions around
          (.block source (.atRule "media" params hasBlock) settled children)).copies = [] := by
        cases holds : (Media.conditions toggle.hook params).value with
        | none => rw [treatNode_media_of_none _ _ _ _ _ _ _ holds]
        | some own => rw [treatNode_media_of_some _ _ _ _ _ _ _ holds, Treatment.ofBlock]
      rw [treatNodes_cons, Treatment.copies_append, noCopies, List.nil_append, ofRest,
        List.filter_cons_of_neg (by simp [untreated])]
  | other node rest isOther ofRest =>
      rw [treatNodes_cons, Treatment.copies_append, ofRest, treatNode_other _ _ _ isOther]
      cases treated : node.isTreated with
      | false => simp [treated, Treatment.keep]
      | true => cases always : conditions.isEmpty <;> simp [treat, always, treated]

/-- What the copy of every treated node meets, the copies for the container block meet. -/
theorem copies_treatNodes_of_partwise {condition : List Node → Prop}
    (partwise : Partwise condition) (conditions : List String) (around : Option String)
    {nodes : List Node}
    (ofCopy : ∀ node ∈ nodes, node.isTreated → condition (toggle.previewCopy node).value) :
    condition (treatNodes toggle conditions around nodes).copies := by
  rw [copies_treatNodes]
  split
  · exact partwise.nil
  · refine partwise.flatMap_iff.mpr fun node member => ?_
    obtain ⟨isNode, treated⟩ := List.mem_filter.mp member
    exact ofCopy node isNode treated

end Toggle

end ContainerPreview
