import ContainerPreview.Proofs.Toggle.Covers
import ContainerPreview.Proofs.Toggle.Fitting

/-!
# What a pass puts in

Variants of rules and container blocks are put in behind the nodes they are made
of, and a later visit may put more nodes in behind and among these.  All of them are
made of nodes of the sheet, so their rules are fit for the container if the declarations
of the sheet are plain.  Only rules directly in keyframes are left as they are.
-/

namespace ContainerPreview

namespace Toggle

variable {toggle : Toggle} {zone : Zone}

/-! ## Container blocks -/

theorem fitting_allContainers {treatment : Treatment} {zone' : Zone}
    (sameZone : zone.inQuery = zone') (copies : Fitting zone' treatment.copies)
    (containers : Fitting zone treatment.containers) (conditions : List String) :
    Fitting zone (treatment.allContainers conditions) := by
  rw [Treatment.allContainers_eq]
  refine Holds.append_iff.mpr ⟨?_, containers⟩
  split
  · exact .nil
  · refine .block ?_ .nil
    rw [Zone.within_container, sameZone]
    exact copies

/-- The copies of the nodes of a media block are fit where they are put in. -/
theorem fitting_copies_treatNodes (standard : toggle.converter = Converter.standard)
    (conditions : List String) (around : Option String) {nodes : List Node}
    (fitting : Fitting zone nodes) :
    Fitting zone.added (treatNodes toggle conditions around nodes).copies :=
  toggle.copies_treatNodes_of_partwise Holds.partwise conditions around fun node member _ =>
    fitting_previewCopy standard (Holds.partwise.iff_forall_mem.mp fitting node member)

/-- The container blocks of the media blocks in a media block are fit in a zone where they may
stand around the copies. -/
theorem fitting_containers_treatNodes (standard : toggle.converter = Converter.standard)
    (conditions : List String) (around : Option String) {zone zone' : Zone} {nodes : List Node}
    (fitting : Fitting zone nodes) (sameZone : zone'.inQuery = zone.added) :
    Fitting zone' (treatNodes toggle conditions around nodes).containers := by
  induction nodes using nest_induction generalizing conditions around zone with
  | nil => exact .nil
  | media source params hasBlock settled children rest ofChildren ofRest =>
      rw [treatNodes_cons, Treatment.containers_append]
      refine Holds.append_iff.mpr
        ⟨?_, ofRest conditions around (Holds.cons_iff.mp fitting).2 sameZone⟩
      cases holds : (Media.conditions toggle.hook params).value with
      | none =>
          rw [treatNode_media_of_none _ _ _ _ _ _ _ holds]
          exact .nil
      | some own =>
          have childrenFitting := Holds.block_iff.mp (Holds.cons_iff.mp fitting).1
          rw [Zone.within_media] at childrenFitting
          have sameBelow : zone'.inQuery = zone.inQuery.added := by
            rw [← Zone.inQuery_added, ← sameZone, Zone.inQuery_inQuery]
          rw [treatNode_media_of_some _ _ _ _ _ _ _ holds]
          exact fitting_allContainers sameBelow
            (fitting_copies_treatNodes standard (Media.combine conditions own) source
              childrenFitting) (ofChildren _ source childrenFitting sameBelow) _
  | other node rest isOther ofRest =>
      rw [treatNodes_cons, Treatment.containers_append, containers_treatNode_other _ _ _ isOther]
      exact ofRest conditions around (Holds.cons_iff.mp fitting).2 sameZone

/-- The container blocks of a media block are made of what is in it. -/
theorem makes_containers (standard : toggle.converter = Converter.standard)
    (conditions : List String) (around source : Option String) (params : String)
    (hasBlock settled : Bool) (children : List Node) :
    Makes (.block source (.atRule "media" params hasBlock) settled children)
      (((treatNodes toggle conditions source children).allContainers conditions).map
        (Node.inherit around)) := by
  intro zone fitting
  have ofChildren := Holds.block_iff.mp fitting
  rw [Zone.within_media] at ofChildren
  exact (fitting_allContainers zone.inQuery_added
    (fitting_copies_treatNodes standard conditions source ofChildren)
    (fitting_containers_treatNodes standard conditions source ofChildren zone.inQuery_added)
    conditions).inherit around

/-- Putting in nodes that are made of what is there covers a pass. -/
theorem covers_adds (standard : toggle.converter = Converter.standard) :
    toggle.Covers (Adds Makes) where
  refl := .refl makes_nil
  trans := Adds.trans
  append := Adds.append
  rule ofChildren := .blockAlone makes_nil (.same _) ofChildren .nil
  block _ ofChildren := .blockAlone makes_nil (.same _) ofChildren .nil
  settle source selector settled children :=
    .blockAlone makes_nil (.same _) (.refl makes_nil children) .nil
  scope source selector settled children :=
    .blockAlone makes_nil (.rescoped _ _) (.refl makes_nil children) .nil
  fork around source selector children := by
    rw [forkedRule, ← List.append_nil (Fork.variants _)]
    exact .block (.rescoped _ _) (.refl makes_nil children)
      (makes_variants standard around source selector selector false children) .nil
  preview conditions around source params hasBlock children := by
    rw [← List.append_nil (List.map (Node.inherit around) _)]
    exact .block (.same _) (.refl makes_nil children)
      (makes_containers standard conditions around source params hasBlock false children) .nil

end Toggle

/-! ## The whole sheet -/

mutual
/-- Every rule of the node, the node itself included, has only declarations in it that fit,
unless it is directly in keyframes.  The flag tells whether the node itself is. -/
def Node.rulesFit (converter : Converter) (inKeyframes : Bool) : Node → Bool
  | .leaf _ _ => true
  | .block _ (.rule _) _ children =>
      (inKeyframes || (declarationsIn children).all converter.fits) &&
        rulesFitIn converter false children
  | .block _ head _ children => rulesFitIn converter head.isKeyframes children
/-- Every rule of the nodes has only declarations in it that fit, unless it is directly in
keyframes. -/
def rulesFitIn (converter : Converter) (inKeyframes : Bool) : List Node → Bool
  | [] => true
  | node :: nodes => node.rulesFit converter inKeyframes && rulesFitIn converter inKeyframes nodes
end

/-- Fit nodes outside rules, or in a rule, have rules that fit. -/
theorem rulesFitIn_of_fitting {zone : Zone} {inKeyframes : Bool} {nodes : List Node}
    (fitting : Fitting zone nodes) (isZone : zone = .inner ∨ zone = Zone.outside inKeyframes) :
    rulesFitIn Converter.standard inKeyframes nodes := by
  induction fitting generalizing inKeyframes with
  | nil => rfl
  | leaf _ _ ofRest => exact ofRest isZone
  | @block zone source head settled children rest childrenFitting _ ofChildren ofRest =>
      rw [rulesFitIn, ofRest isZone, Bool.and_true]
      cases head with
      | sheet => exact ofChildren (Zone.within_of_outside (by simp) isZone)
      | atRule name params hasBlock => exact ofChildren (Zone.within_of_outside (by simp) isZone)
      | rule selector =>
          rw [Node.rulesFit, Bool.and_eq_true, Bool.or_eq_true, List.all_eq_true]
          cases inKeyframes with
          | true =>
              have below : zone.within (.rule selector) = .inner ∨
                  zone.within (.rule selector) = Zone.outside false := by
                rcases isZone with rfl | rfl
                · exact .inl rfl
                · exact .inr rfl
              exact ⟨.inl rfl, ofChildren below⟩
          | false =>
              have inRule : zone.within (.rule selector) = .inner := by
                rcases isZone with rfl | rfl <;> rfl
              have allFit : rulesFitIn Converter.standard false children :=
                ofChildren (.inl inRule)
              rw [inRule] at childrenFitting
              exact ⟨.inr (Holds.fit_of_mem childrenFitting), allFit⟩

namespace Toggle

/-- The context rule is fit. -/
theorem fitting_addedContext (toggle : Toggle) (source : Option String) (nodes : List Node) :
    Fitting .outer (toggle.addedContext source nodes) := by
  have relative : Fitting .inner
      [.leaf source (.declaration { property := "position", value := "relative" })] :=
    fitting_declaration ⟨by decide, by decide⟩ (by decide)
  have contain : Fitting .inner
      [.leaf source (.declaration { property := "contain", value := "layout" })] :=
    fitting_declaration ⟨by decide, by decide⟩ (by decide +kernel)
  unfold addedContext
  split
  · exact .block (Holds.append_iff.mpr ⟨relative, contain⟩) .nil
  · exact .nil

end Toggle

/-- A run with the standard maps puts only rules into a sheet whose declarations, at any depth,
fit: none is a fixed position, and no other has a viewport unit.  Rules directly in keyframes
are left as they are.  This is for values in ASCII in which no backslash takes an end of line. -/
theorem runToggle_fits (options : Options) (source : Option String) (head : Head)
    (settled : Bool) (children : List Node) (standardUnits : options.units = .standard)
    (standardTypography : options.typographyUnits = .standardTypography)
    (plain : ∀ declaration ∈ declarationsIn children, declaration.IsPlain) :
    ∃ nodes,
      (runToggle options (.block source head settled children)).value =
          .block source head false
            ((Toggle.ofOptions options).addedContext source children ++ nodes) ∧
        rulesFitIn Converter.standard false
            ((Toggle.ofOptions options).addedContext source children) ∧
          Adds (fun _ added => rulesFitIn Converter.standard false added) children nodes := by
  have standard : (Toggle.ofOptions options).converter = Converter.standard := by
    rw [Toggle.ofOptions, standardUnits, standardTypography]
    rfl
  have fitting : Fitting .authored (clearMarksIn children) :=
    .of_declarations (by simpa using plain)
  obtain ⟨nodes, isRun, adds⟩ :=
    (Toggle.covers_adds standard).exists_run source head settled children
  have unmarked (added : List Node) (addedFits : Fitting .outer added) :
      rulesFitIn Converter.standard false (clearMarksIn added) :=
    rulesFitIn_of_fitting (Holds.clearMarksIn addedFits) (.inr rfl)
  have contextFits : rulesFitIn Converter.standard false
      ((Toggle.ofOptions options).addedContext source children) :=
    rulesFitIn_of_fitting ((Toggle.ofOptions options).fitting_addedContext source children)
      (.inr rfl)
  exact ⟨clearMarksIn nodes, isRun, contextFits, (adds.of_holds fitting).of_clearMarksIn unmarked⟩

/-- Nodes of a sheet: a rule with a fixed position and an offset, and a media block with a rule
nested in another one and with keyframes. -/
def variousNodes : List Node :=
  [.block none (.rule ".bar") false
      [.leaf none (.declaration { property := "position", value := "Fixed" }),
        .leaf none (.declaration { property := "top", value := "10vh" })],
    .block none (.atRule "media" "(min-width: 600px)" true) false
      [.block none (.rule ".text") false
          [.leaf none (.declaration
              { property := "font-size", value := "clamp(1rem, 2vw + 1rem, 3rem)" }),
            .leaf none (.declaration { property := "content", value := "'\\'1vw' 5vw" }),
            .block none (.rule "&:hover") false
              [.leaf none (.declaration { property := "width", value := "calc(50vw - 1vmin)" })]],
        .block none (.atRule "keyframes" "grow" true) false
          [.block none (.rule "to") false
            [.leaf none (.declaration { property := "width", value := "100vw" })]]]]

theorem runToggle_fits_variousNodes :
    ({} : Options).units = .standard ∧ ({} : Options).typographyUnits = .standardTypography ∧
      (∀ declaration ∈ declarationsIn variousNodes, declaration.IsPlain) ∧
        ∃ nodes,
          (runToggle {} (.block none .sheet false variousNodes)).value =
              .block none .sheet false
                ((Toggle.ofOptions {}).addedContext none variousNodes ++ nodes) ∧
            rulesFitIn Converter.standard false
                ((Toggle.ofOptions {}).addedContext none variousNodes) ∧
              Adds (fun _ added => rulesFitIn Converter.standard false added) variousNodes
                nodes := by
  have plain : ∀ declaration ∈ declarationsIn variousNodes, declaration.IsPlain := by
    decide
  exact ⟨rfl, rfl, plain, runToggle_fits {} none .sheet false variousNodes rfl rfl plain⟩

/-- A rule with a string in which a backslash takes an end of line. -/
def brokenNodes : List Node :=
  [.block none (.rule ".a") false
    [.leaf none (.declaration
        { property := "--frame", value := "\"clamp(\\\n, 1px)\" 1vw \"x\"" }),
      .leaf none (.declaration { property := "width", value := "1vw" })]]

/-- The variant of the rule has a viewport unit: the string is taken for free text and loses
its end of line, so that what follows it is no string any more. -/
theorem not_fits_brokenNodes :
    (∀ declaration ∈ declarationsIn brokenNodes, Text.IsAscii declaration.value.toList) ∧
      ¬ ∃ nodes,
        (runToggle {} (.block none .sheet false brokenNodes)).value =
            .block none .sheet false
              ((Toggle.ofOptions {}).addedContext none brokenNodes ++ nodes) ∧
          Adds (fun _ added => rulesFitIn Converter.standard false added) brokenNodes nodes := by
  have noContext : (Toggle.ofOptions {}).addedContext none brokenNodes = [] := by
    rfl
  have unfit : rulesFitIn Converter.standard false
      ((runToggle {} (.block none .sheet false brokenNodes)).value.children.drop 1) = false := by
    decide +kernel
  refine ⟨by decide, ?_⟩
  rintro ⟨nodes, isRun, adds⟩
  rw [isRun, noContext] at unfit
  cases adds with
  | block _ _ isMade ofRest =>
      cases ofRest
      rw [List.append_nil] at unfit
      exact absurd (isMade.symm.trans unfit) (by decide)

end ContainerPreview
