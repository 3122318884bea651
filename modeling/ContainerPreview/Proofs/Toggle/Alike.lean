import ContainerPreview.Proofs.Sheet.Alike
import ContainerPreview.Proofs.Toggle.Concat

/-!
# A pass does not look at files

The pass makes alike trees out of alike trees: which file a node comes from has
no part in what becomes of it, and a copy of a rule comes from the file of the
rule.  Two things follow.  Files may be used to tell the rules of a sheet apart
in what a run makes of it.  And no rule in it comes from a file that no rule of
the sheet comes from, but for the context rule.
-/

namespace ContainerPreview

variable {related : Option String → Option String → Prop}

/-! ## Variants -/

theorem Alike.nodesVariant {nodes nodes' : List Node} (converter : Converter) (fixed : Bool)
    (file file' : Option String) (alike : Alike related nodes nodes') :
    Alike related (nodesVariant converter fixed file nodes).value.nodes
      (nodesVariant converter fixed file' nodes').value.nodes := by
  induction alike generalizing file file' with
  | nil => exact .nil
  | @leaf source source' content _ _ _ ofRest =>
      refine Alike.append ?_ (ofRest file file')
      cases content with
      | declaration declaration =>
          simp only [nodeVariant, declarationVariant]
          split
          · exact .leaf .nil
          · split
            · exact .leaf (.leaf .nil)
            · exact .leaf .nil
      | comment text => exact .leaf .nil
  | @block source source' _ _ _ _ _ _ ofRule _ _ ofChildren ofRest =>
      exact .append (.block ofRule (ofChildren source source') .nil) (ofRest file file')

theorem Alike.hasFixedPosition_eq {nodes nodes' : List Node} (alike : Alike related nodes nodes') :
    hasFixedPosition nodes = hasFixedPosition nodes' := by
  simp only [hasFixedPosition, alike.declarationsIn_eq]

theorem Alike.needsVariant_eq {nodes nodes' : List Node} (converter : Converter)
    (alike : Alike related nodes nodes') :
    needsVariant converter nodes = needsVariant converter nodes' := by
  simp only [needsVariant, alike.hasFixedPosition_eq, alike.declarationsIn_eq]

namespace Toggle

variable {toggle : Toggle} {around around' source source' : Option String} {selector : String}
  {node node' : Node} {children children' nodes nodes' : List Node}

section Rules

variable (toggle) in
theorem alike_variantChildren (file file' : Option String)
    (alike : Alike related children children') :
    Alike related (toggle.variantChildren file children).value
      (toggle.variantChildren file' children').value := by
  simp only [variantChildren, processChildren, if_true, Traced.value_bind, Traced.value_pure,
    alike.hasFixedPosition_eq]
  exact alike.nodesVariant toggle.converter (hasFixedPosition children') file file'

theorem alike_scopeNodes (inKeyframes : Bool) (alike : Alike related nodes nodes') :
    Alike related (scopeNodes toggle inKeyframes nodes) (scopeNodes toggle inKeyframes nodes') := by
  induction alike generalizing inKeyframes with
  | nil => exact .nil
  | leaf _ ofRest => exact .leaf (ofRest inKeyframes)
  | @block _ _ head _ _ _ _ _ ofRule _ _ ofChildren ofRest =>
      cases head with
      | sheet => exact .other (by simp) (ofChildren _) (ofRest inKeyframes)
      | rule selector =>
          have sources := ofRule selector rfl
          cases inKeyframes with
          | true => exact .rule sources (ofChildren false) (ofRest true)
          | false => exact .rule sources (ofChildren false) (ofRest false)
      | atRule name params hasBlock => exact .other (by simp) (ofChildren _) (ofRest inKeyframes)

theorem alike_scopeTreated (alike : Alike related [node] [node']) :
    Alike related [toggle.scopeTreated node] [toggle.scopeTreated node'] := by
  have scopedAll := toggle.alike_scopeNodes false alike
  cases alike with
  | leaf => exact scopedAll
  | @block _ _ head _ _ _ _ _ ofRule ofChildren _ =>
      cases head with
      | sheet => exact scopedAll
      | rule selector => exact .rule (ofRule selector rfl) ofChildren .nil
      | atRule name params hasBlock => exact scopedAll

end Rules

section Copies

variable (persist : FilesPersist related)

include persist

/-- Alike rules get the same selector list and alike variants. -/
theorem alike_forkRule (around around' : Option String) (selector : String)
    (sources : related source source') (alike : Alike related children children') :
    (toggle.forkRule around source selector children).value.selector =
        (toggle.forkRule around' source' selector children').value.selector ∧
      Alike related (toggle.forkRule around source selector children).value.variants
        (toggle.forkRule around' source' selector children').value.variants := by
  rw [forkRule, forkRule, alike.needsVariant_eq]
  cases needsVariant toggle.converter children' with
  | true =>
      have converted := toggle.alike_variantChildren source source'
        (alike.copyInto persist source source')
      exact ⟨rfl, .rule (persist _ _ sources around around') converted .nil⟩
  | false => exact ⟨rfl, .nil⟩

theorem alike_forkedRule (around around' : Option String) (selector : String)
    (sources : related source source') (alike : Alike related children children')
    (ofInner : Alike related nodes nodes') :
    Alike related
      (forkedRule (toggle.forkRule around source selector children).value source nodes)
      (forkedRule (toggle.forkRule around' source' selector children').value source' nodes') := by
  rcases toggle.alike_forkRule persist around around' selector sources alike with
    ⟨sameSelector, variantsAlike⟩
  rw [forkedRule, forkedRule, sameSelector]
  exact .rule sources ofInner variantsAlike

theorem alike_forkNodes (inKeyframes : Bool) (around around' : Option String)
    (alike : Alike related nodes nodes') :
    Alike related (forkNodes toggle inKeyframes around nodes).value
      (forkNodes toggle inKeyframes around' nodes').value := by
  induction alike generalizing inKeyframes around around' with
  | nil => exact .nil
  | leaf _ ofRest => exact .leaf (ofRest inKeyframes around around')
  | @block source source' head settled _ _ _ _ ofRule childrenAlike _ ofChildren ofRest =>
      have ofRest := ofRest inKeyframes around around'
      cases head with
      | sheet => exact .other (by simp) (ofChildren _ source source') ofRest
      | rule selector =>
          have sources := ofRule selector rfl
          have ofChildren := ofChildren false source source'
          simp only [forkNodes, forkNode, Traced.value_bind, Traced.value_pure]
          split
          · exact .rule sources ofChildren ofRest
          · exact .append (toggle.alike_forkedRule persist around around' selector sources
              childrenAlike ofChildren) ofRest
      | atRule name params hasBlock => exact .other (by simp) (ofChildren _ source source') ofRest

theorem alike_forkTreated (around around' : Option String) (alike : Alike related [node] [node']) :
    Alike related (toggle.forkTreated around node).value
      (toggle.forkTreated around' node').value := by
  have forkedAll := toggle.alike_forkNodes persist false around around' alike
  simp only [forkNodes, Traced.value_bind, Traced.value_pure, List.append_nil] at forkedAll
  cases alike with
  | leaf => exact forkedAll
  | @block _ _ head settled _ _ _ _ ofRule ofChildren _ =>
      cases head with
      | sheet => exact forkedAll
      | rule selector =>
          have sources := ofRule selector rfl
          cases settled with
          | true => exact .rule sources ofChildren .nil
          | false =>
              exact toggle.alike_forkedRule persist around around' selector sources ofChildren
                ofChildren
      | atRule name params hasBlock => exact forkedAll

omit persist in
theorem alike_convertCopies (levels : Nat) (inKeyframes : Bool) (alike : Alike related nodes nodes') :
    Alike related (toggle.convertCopies levels inKeyframes nodes).value
      (toggle.convertCopies levels inKeyframes nodes').value := by
  induction levels generalizing inKeyframes nodes nodes' with
  | zero => exact alike
  | succ levels inductionHypothesis =>
      simp only [convertCopies, Traced.value_mapM]
      refine alike.map fun nodeAlike => ?_
      cases nodeAlike with
      | leaf => exact .leaf .nil
      | @block source source' head _ _ _ _ _ ofRule ofChildren _ =>
          cases head with
          | sheet => exact .other (by simp) (inductionHypothesis _ ofChildren) .nil
          | rule selector =>
              have sources := ofRule selector rfl
              cases inKeyframes with
              | true => exact .rule sources (inductionHypothesis false ofChildren) .nil
              | false =>
                  have converted := toggle.alike_variantChildren source source' ofChildren
                  exact .rule sources (inductionHypothesis false converted) .nil
          | atRule name params hasBlock =>
              exact .other (by simp) (inductionHypothesis _ ofChildren) .nil

theorem alike_previewCopy (alike : Alike related [node] [node']) :
    Alike related (toggle.previewCopy node).value (toggle.previewCopy node').value := by
  have copied := alike.copy persist
  have converted : Alike related (toggle.convertCopies node.copy.height false [node.copy]).value
      (toggle.convertCopies node'.copy.height false [node'.copy]).value := by
    rw [← copied.height_eq]
    exact toggle.alike_convertCopies node.copy.height false copied
  unfold previewCopy
  generalize node.copy = copy, node'.copy = copy' at copied converted
  cases copied with
  | leaf => exact converted
  | @block source source' head _ _ _ _ _ ofRule ofChildren _ =>
      cases head with
      | sheet => exact converted
      | rule selector =>
          exact .rule (ofRule selector rfl) (toggle.alike_variantChildren source source' ofChildren)
            .nil
      | atRule name params hasBlock => exact converted

/-! ## Treated nodes -/

omit persist in
theorem alike_allContainers {treatment treatment' : Treatment} (conditions : List String)
    (copies : Alike related treatment.copies treatment'.copies)
    (containers : Alike related treatment.containers treatment'.containers) :
    Alike related (treatment.allContainers conditions) (treatment'.allContainers conditions) := by
  rw [Treatment.allContainers_eq, Treatment.allContainers_eq, copies.isEmpty_eq]
  refine Alike.append ?_ containers
  split
  · exact .nil
  · exact .other (by simp) copies .nil

/-- Treating makes alike nodes, copies and container blocks out of alike
nodes. -/
theorem alike_treatNodes (conditions : List String) (around around' : Option String)
    (alike : Alike related nodes nodes') :
    Alike related (treatNodes toggle conditions around nodes).nodes
        (treatNodes toggle conditions around' nodes').nodes ∧
      Alike related (treatNodes toggle conditions around nodes).copies
          (treatNodes toggle conditions around' nodes').copies ∧
        Alike related (treatNodes toggle conditions around nodes).containers
          (treatNodes toggle conditions around' nodes').containers := by
  induction nodes using nest_induction generalizing conditions around around' nodes' with
  | nil =>
      cases alike
      exact ⟨.nil, .nil, .nil⟩
  | media source params hasBlock settled children rest ofChildren ofRest =>
      cases alike with
      | @block _ source' _ _ _ _ _ _ _ childrenAlike restAlike =>
          rcases ofRest conditions around around' restAlike with
            ⟨restNodes, restCopies, restContainers⟩
          simp only [treatNodes_cons, Treatment.nodes_append, Treatment.copies_append,
            Treatment.containers_append]
          cases holds : (Media.conditions toggle.hook params).value with
          | none =>
              rw [treatNode_media_of_none _ _ _ _ _ _ _ holds,
                treatNode_media_of_none _ _ _ _ _ _ _ holds]
              exact ⟨.other (by simp) childrenAlike.settleMediaIn restNodes, restCopies,
                restContainers⟩
          | some own =>
              rcases ofChildren (Media.combine conditions own) source source' childrenAlike with
                ⟨ownNodes, ownCopies, ownContainers⟩
              rw [treatNode_media_of_some _ _ _ _ _ _ _ holds,
                treatNode_media_of_some _ _ _ _ _ _ _ holds]
              exact ⟨.other (by simp) ownNodes restNodes, restCopies,
                .append (alike_allContainers _ ownCopies ownContainers) restContainers⟩
  | other node rest isOther ofRest =>
      rcases alike.exists_of_cons with ⟨node', rest', rfl, nodeAlike, restAlike⟩
      rcases ofRest conditions around around' restAlike with
        ⟨restNodes, restCopies, restContainers⟩
      have isOther' : node'.isMedia = false := nodeAlike.isMedia_eq ▸ isOther
      simp only [treatNodes_cons, Treatment.nodes_append, Treatment.copies_append,
        Treatment.containers_append, treatNode_other _ _ _ isOther, treatNode_other _ _ _ isOther',
        nodeAlike.isTreated_eq]
      cases node'.isTreated with
      | false => exact ⟨nodeAlike.append restNodes, restCopies, restContainers⟩
      | true =>
          simp only [if_true, treat]
          cases conditions.isEmpty with
          | true =>
              exact ⟨.append (toggle.alike_forkTreated persist around around' nodeAlike) restNodes,
                restCopies, restContainers⟩
          | false =>
              exact ⟨.append (toggle.alike_scopeTreated nodeAlike) restNodes,
                .append (toggle.alike_previewCopy persist nodeAlike) restCopies, restContainers⟩

/-! ## Visits and walks -/

theorem alike_visitMedia (around around' source source' : Option String) (params : String)
    (hasBlock : Bool) (alike : Alike related children children') :
    Alike related
      ((toggle.visitMedia around source params hasBlock children).value.node ::
        (toggle.visitMedia around source params hasBlock children).value.after)
      ((toggle.visitMedia around' source' params hasBlock children').value.node ::
        (toggle.visitMedia around' source' params hasBlock children').value.after) := by
  simp only [visitMedia, alike.selectorsIn_eq]
  cases (selectorsIn children').any fun selector => Text.contains selector toggle.viewportGuard with
  | true => exact .other (by simp) alike .nil
  | false =>
      simp only [Bool.false_eq_true, if_false, Traced.value_bind]
      cases (Media.conditions toggle.hook params).value with
      | none => exact .other (by simp) alike.settleMediaIn .nil
      | some own =>
          rcases toggle.alike_treatNodes persist own source source' alike with
            ⟨nodesAlike, copiesAlike, containersAlike⟩
          refine .other (by simp) nodesAlike ?_
          exact (alike_allContainers own copiesAlike containersAlike).map
            (.inherit persist around around')

/-- A visit leaves alike nodes, and puts alike nodes after them.  Of the place
only the file of the block around it may differ. -/
theorem alike_visit (place : Place) (around : Option String) (alike : Alike related [node] [node']) :
    Alike related
      ((toggle.visit place node).value.node :: (toggle.visit place node).value.after)
      ((toggle.visit { place with around } node').value.node ::
        (toggle.visit { place with around } node').value.after) := by
  cases alike with
  | leaf => exact .leaf .nil
  | @block source source' head settled children children' _ _ ofRule ofChildren _ =>
      rcases head with _ | selector | ⟨name, params, hasBlock⟩
      · exact .other (by simp) ofChildren .nil
      · have sources := ofRule selector rfl
        simp only [visit, visitRule]
        cases settled || place.insideQuery || place.inKeyframes with
        | true => exact .rule sources ofChildren .nil
        | false =>
            cases toggle.isGuarded selector with
            | true => exact .rule sources ofChildren .nil
            | false =>
                exact toggle.alike_forkedRule persist place.around around selector sources
                  ofChildren ofChildren
      · by_cases isMedia : (Node.block source (.atRule name params hasBlock) settled
          children).isMedia = true
        · obtain rfl : name = "media" := by
            simpa [Node.isMedia, Node.head?, Head.isMedia] using isMedia
          cases settled with
          | true => exact .other (by simp) ofChildren .nil
          | false =>
              exact toggle.alike_visitMedia persist place.around around source source' params
                hasBlock ofChildren
        · have isOther : (Node.block source (.atRule name params hasBlock) settled
              children).isMedia = false := by simpa using isMedia
          have isOther' : (Node.block source' (.atRule name params hasBlock) settled
              children').isMedia = false := isOther
          rw [toggle.visit_other place rfl isOther, toggle.visit_other _ rfl isOther']
          exact .other (by simp) ofChildren .nil

/-- If going below alike nodes leaves alike nodes, so does a walk over alike
nodes. -/
theorem alike_walkNodes {below : Place → Node → Traced Node} (place : Place)
    (around : Option String)
    (ofBelow : ∀ {node node'}, Alike related [node] [node'] →
      Alike related [(below place node).value] [(below { place with around } node').value])
    (alike : Alike related nodes nodes') :
    Alike related (toggle.walkNodes below place nodes).value
      (toggle.walkNodes below { place with around } nodes').value := by
  induction alike using Alike.nodes_induction with
  | nil => exact .nil
  | cons nodeAlike _ ofRest =>
      have visited := toggle.alike_visit persist place around nodeAlike
      rw [value_walkNodes_cons, value_walkNodes_cons, value_visitBelow, value_visitBelow]
      exact .append (visited.map ofBelow) ofRest

theorem alike_walkBelow (levels : Nat) (place : Place) (around : Option String)
    (alike : Alike related [node] [node']) :
    Alike related [(toggle.walkBelow levels place node).value]
      [(toggle.walkBelow levels { place with around } node').value] := by
  induction levels generalizing place around node node' with
  | zero => exact alike
  | succ levels inductionHypothesis =>
      cases alike with
      | leaf => exact .leaf .nil
      | @block source source' head _ _ _ _ _ ofRule ofChildren _ =>
          have walked := toggle.alike_walkNodes persist (place.within source head) source'
            (inductionHypothesis (place.within source head) source') ofChildren
          exact .block ofRule walked .nil

/-- The share of a node in what a walk leaves is alike that of an alike node. -/
theorem alike_walkShare (place : Place) (around : Option String)
    (alike : Alike related [node] [node']) :
    Alike related (toggle.walkShare place node) (toggle.walkShare { place with around } node') := by
  have visited := toggle.alike_visit persist place around alike
  rw [walkShare, walkShare, alike.height_eq, value_visitBelow, value_visitBelow]
  exact (visited.map (toggle.alike_walkBelow persist _ place around)).clearMarksIn

end Copies

end Toggle

/-- The context rule is put in front of both of two alike lists, or of none. -/
theorem Toggle.alike_addedContext (toggle : Toggle) {source source' : Option String}
    {nodes nodes' : List Node} (sources : related source source')
    (alike : Alike related nodes nodes') :
    Alike related (toggle.addedContext source nodes) (toggle.addedContext source' nodes') := by
  have samePresent : (nodes.any (·.selector? == some toggle.previewGuard)) =
      nodes'.any (·.selector? == some toggle.previewGuard) := by
    induction alike using Alike.nodes_induction with
    | nil => rfl
    | cons nodeAlike _ ofRest =>
        rw [List.any_cons, List.any_cons, nodeAlike.selector?_eq, ofRest]
  rw [addedContext, addedContext, alike.hasFixedPosition_eq, samePresent]
  split
  · exact .rule sources (.leaf (.leaf .nil)) .nil
  · exact .nil

/-- Runs over sheets that are written in the same way leave sheets that are
written in the same way, whatever files the nodes come from. -/
theorem sameText_runToggle (options : Options) (source source' : Option String) (settled : Bool)
    {children children' : List Node} (alike : SameText children children') :
    SameText (runToggle options (.block source .sheet settled children)).value.children
      (runToggle options (.block source' .sheet settled children')).value.children := by
  rw [value_runToggle_eq_flatMap, value_runToggle_eq_flatMap]
  refine .append ((Toggle.ofOptions options).alike_addedContext trivial alike) ?_
  exact alike.clearMarksIn.flatMap fun nodeAlike =>
    Toggle.alike_walkShare filesPersist_true (Place.outside.within source .sheet) source' nodeAlike

end ContainerPreview
