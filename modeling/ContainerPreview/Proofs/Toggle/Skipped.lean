import ContainerPreview.Proofs.Toggle.Cascade
import ContainerPreview.Proofs.Toggle.Spared

/-!
# Guarded rules

Rules can be guarded before a pass, by hand or by an earlier pass.  A guarded rule
that the pass comes upon is skipped: it keeps its selector list and gets no variant.
A media block with a rule in it that is scoped to the viewport is skipped as a whole:
nothing is put behind it, and what is in it is left to the visits there.

A rule that is scoped to the preview does not make its media block one that is
skipped.  Such a rule is skipped if all media blocks around it have a rule that is
scoped to the viewport as well, and may be copied or forked otherwise.
-/

namespace ContainerPreview

/-- What becomes of nodes without marks if guarded rules are skipped, apart from those
in media blocks whose nodes are exempt. -/
inductive Skips (toggle : Toggle) (exempt : List Node → Prop) : List Node → List Node → Prop
  | nil : Skips toggle exempt [] []
  | leaf {source : Option String} {content : Leaf} {before after : List Node}
      (ofRest : Skips toggle exempt before after) :
      Skips toggle exempt (.leaf source content :: before) (.leaf source content :: after)
  /-- A rule has rules put behind it.  A guarded rule stays as it is, and alone. -/
  | rule {source : Option String} {selector selector' : String}
      {children children' variants before after : List Node}
      (ofGuarded : toggle.isGuarded selector → selector' = selector ∧ variants = [])
      (ofChildren : Skips toggle exempt children children')
      (areRules : ∀ node ∈ variants, node.isRule) (ofRest : Skips toggle exempt before after) :
      Skips toggle exempt (.block source (.rule selector) false children :: before)
        (.block source (.rule selector') false children' :: (variants ++ after))
  /-- Another block has nothing put behind it. -/
  | block {source : Option String} {head : Head} {children children' before after : List Node}
      (noRule : ∀ selector, head ≠ .rule selector)
      (ofChildren : Skips toggle exempt children children')
      (ofRest : Skips toggle exempt before after) :
      Skips toggle exempt (.block source head false children :: before)
        (.block source head false children' :: after)
  /-- Only behind a media block with exempt nodes are there container blocks. -/
  | media {source : Option String} {params : String} {hasBlock : Bool}
      {children children' containers before after : List Node} (isExempt : exempt children)
      (ofChildren : Grows (fun own own' => own'.1 ∈ toggle.finalSelectors own.1) children children')
      (areContainers : ∀ node ∈ containers, node.isContainerBlock)
      (ofRest : Skips toggle exempt before after) :
      Skips toggle exempt
        (.block source (.atRule "media" params hasBlock) false children :: before)
        (.block source (.atRule "media" params hasBlock) false children' :: (containers ++ after))

namespace Skips

variable {toggle : Toggle} {exempt exempt' : List Node → Prop} {source : Option String}
  {head : Head} {selector : String} {children before after : List Node}

/-- If fewer nodes are exempt, as far as media blocks among the given nodes go, just as
much is skipped. -/
theorem imp (skips : Skips toggle exempt before after)
    (implies : ∀ node ∈ descendantsIn before, node.isMedia → exempt node.children →
      exempt' node.children) :
    Skips toggle exempt' before after := by
  induction skips with
  | nil => exact nil
  | leaf _ ofRest => exact leaf (ofRest (forall_descendantsIn_leaf.mp implies).2)
  | rule ofGuarded _ areRules _ ofChildren ofRest =>
      rcases forall_descendantsIn_block.mp implies with ⟨-, below, later⟩
      exact rule ofGuarded (ofChildren below) areRules (ofRest later)
  | block noRule _ _ ofChildren ofRest =>
      rcases forall_descendantsIn_block.mp implies with ⟨-, below, later⟩
      exact block noRule (ofChildren below) (ofRest later)
  | media isExempt grows areContainers _ ofRest =>
      rcases forall_descendantsIn_block.mp implies with ⟨here, -, later⟩
      exact media (here rfl isExempt) grows areContainers (ofRest later)

/-- A guarded rule stays alone. -/
theorem alone_of_guarded (guarded : toggle.isGuarded selector)
    (skips : Skips toggle exempt [.block source (.rule selector) false children] after) :
    ∃ children', after = [.block source (.rule selector) false children'] := by
  cases skips with
  | rule ofGuarded _ _ ofRest =>
      obtain ⟨rfl, rfl⟩ := ofGuarded guarded
      cases ofRest
      exact ⟨_, rfl⟩
  | block noRule => exact absurd rfl (noRule selector)

/-- A block whose nodes are not exempt stays alone. -/
theorem alone_of_not_exempt (noRule : ∀ selector, head ≠ .rule selector)
    (notExempt : ¬ exempt children)
    (skips : Skips toggle exempt [.block source head false children] after) :
    ∃ children', after = [.block source head false children'] ∧
      Skips toggle exempt children children' := by
  cases skips with
  | rule => exact absurd rfl (noRule _)
  | block _ ofChildren ofRest =>
      cases ofRest
      exact ⟨_, rfl, ofChildren⟩
  | media isExempt => exact absurd isExempt notExempt

end Skips

namespace Toggle

variable (toggle : Toggle)

/-! ## Shares -/

/-- The share of a guarded rule is the rule, with what the walk leaves of its
children. -/
theorem walkShare_rule_of_guarded (place : Place) (source : Option String) {selector : String}
    (settled : Bool) (children : List Node) (guarded : toggle.isGuarded selector) :
    toggle.walkShare place (.block source (.rule selector) settled children) =
      [.block source (.rule selector) false
        (children.flatMap (toggle.walkShare (place.within source (.rule selector))))] := by
  have visited : ∃ settled',
      (toggle.visit place (.block source (.rule selector) settled children)).value =
        { node := .block source (.rule selector) settled' children } := by
    simp only [visit, visitRule]
    split
    · exact ⟨settled, rfl⟩
    · exact ⟨true, rfl⟩
  obtain ⟨settled', visited⟩ := visited
  rw [walkShare_eq_cons, visited, walkInto_block, List.map_nil]

/-- The share of a media block with a rule in it that is scoped to the viewport is the
block, with what the walk leaves of its nodes. -/
theorem walkShare_media_of_not_viewportFree (place : Place) (source : Option String)
    (params : String) (hasBlock settled : Bool) {children : List Node}
    (notFree : ¬ ViewportFree toggle children) :
    toggle.walkShare place (.block source (.atRule "media" params hasBlock) settled children) =
      [.block source (.atRule "media" params hasBlock) false
        (children.flatMap
          (toggle.walkShare (place.within source (.atRule "media" params hasBlock))))] := by
  have visited : (toggle.visit place
      (.block source (.atRule "media" params hasBlock) settled children)).value =
        { node := .block source (.atRule "media" params hasBlock) true children } := by
    cases settled with
    | true => rfl
    | false =>
        have hasViewport : (selectorsIn children).any fun selector =>
            Text.contains selector toggle.viewportGuard := by
          simpa [viewportFree_iff] using notFree
        rw [visit, visitMedia, if_pos hasViewport]
        rfl
  rw [walkShare_eq_cons, visited, walkInto_block, List.map_nil]

/-- Whatever a node is, its share has grown out of it. -/
theorem grows_walkShare (place : Place) {node : Node} (unmarked : Unmarked [node]) :
    Grows (fun own own' => own'.1 ∈ toggle.finalSelectors own.1) [node]
      (toggle.walkShare place node) := by
  have walked := toggle.grows_walkNodes (toggle.grows_walkBelow node.height) place [node]
  rw [value_walkNodes_cons, walkNodes_nil, Traced.value_pure, List.append_nil] at walked
  rw [← clearMarksIn_of_unmarked unmarked] at walked
  exact walked.of_clearMarksIn
    fun rescoped => (toggle.mem_finalSelectors_of_rescoped rescoped).1

/-- The share of a media block is the block grown, and container blocks. -/
theorem walkShare_media (place : Place) {source : Option String} {params : String}
    {hasBlock : Bool} {children : List Node}
    (unmarked : Unmarked [.block source (.atRule "media" params hasBlock) false children]) :
    ∃ children' containers,
      toggle.walkShare place (.block source (.atRule "media" params hasBlock) false children) =
          .block source (.atRule "media" params hasBlock) false children' :: containers ∧
        Grows (fun own own' => own'.1 ∈ toggle.finalSelectors own.1) children children' ∧
          ∀ node ∈ containers, node.isContainerBlock := by
  have grown := toggle.grows_walkShare place unmarked
  have shareUnmarked : Unmarked (toggle.walkShare place
      (.block source (.atRule "media" params hasBlock) false children)) :=
    unmarked_clearMarksIn _
  generalize toggle.walkShare place _ = share at grown shareUnmarked
  cases grown with
  | @block _ _ _ _ _ children' containers _ _ _ ofChildren areContainers restGrown =>
      obtain ⟨rfl, -, -⟩ := unmarked_block.mp shareUnmarked
      cases restGrown
      rw [List.append_nil]
      exact ⟨children', containers, rfl, ofChildren,
        fun node member => (areContainers node member).2⟩

/-! ## Skipped nodes -/

/-- Guarded rules are skipped where a walk comes upon them, and only media blocks
without a rule that is scoped to the viewport are treated. -/
theorem skips_walkShare (place : Place) {nodes : List Node} (unmarked : Unmarked nodes) :
    Skips toggle (ViewportFree toggle) nodes (nodes.flatMap (toggle.walkShare place)) := by
  induction nodes using forest_induction generalizing place with
  | nil => exact .nil
  | leaf source content rest ofRest => exact .leaf (ofRest place (unmarked_leaf.mp unmarked))
  | block source head settled children rest ofChildren ofRest =>
      rcases unmarked_block.mp unmarked with ⟨rfl, childrenUnmarked, restUnmarked⟩
      have ofRest := ofRest place restUnmarked
      rw [List.flatMap_cons]
      cases head with
      | sheet =>
          rw [toggle.walkShare_other place source .sheet false children rfl rfl]
          exact .block (by simp) (ofChildren _ childrenUnmarked) ofRest
      | rule selector =>
          cases guarded : toggle.isGuarded selector with
          | true =>
              rw [toggle.walkShare_rule_of_guarded place source false children guarded]
              have noVariants : ∀ node ∈ ([] : List Node), node.isRule := List.forall_mem_nil _
              exact .rule (fun _ => ⟨rfl, rfl⟩) (ofChildren _ childrenUnmarked) noVariants ofRest
          | false =>
              obtain ⟨selector', variants, isShare, areRules⟩ :=
                toggle.walkShare_rule place source selector false children
              rw [isShare, List.cons_append]
              exact .rule (by simp [guarded]) (ofChildren _ childrenUnmarked) areRules ofRest
      | atRule name params hasBlock =>
          cases isMedia : (Head.atRule name params hasBlock).isMedia with
          | false =>
              rw [toggle.walkShare_other place source (.atRule name params hasBlock) false children
                rfl isMedia]
              exact .block (by simp) (ofChildren _ childrenUnmarked) ofRest
          | true =>
              obtain rfl : name = "media" := by simpa [Head.isMedia] using isMedia
              by_cases free : ViewportFree toggle children
              · obtain ⟨children', containers, isShare, grown, areContainers⟩ :=
                  toggle.walkShare_media place (forall_descendantsIn_cons.mp unmarked).1
                rw [isShare, List.cons_append]
                exact .media free grown areContainers ofRest
              · rw [toggle.walkShare_media_of_not_viewportFree place source params hasBlock false
                  free]
                exact .block (by simp) (ofChildren _ childrenUnmarked) ofRest

end Toggle

/-! ## The whole sheet -/

/-- A media block with a guarded rule in it has a rule in it that is scoped to the
viewport. -/
def GuardsPaired (toggle : Toggle) (nodes : List Node) : Prop :=
  ∀ node ∈ descendantsIn nodes, node.isMedia → ViewportFree toggle node.children →
    Unguarded toggle node.children

instance (toggle : Toggle) (nodes : List Node) : Decidable (GuardsPaired toggle nodes) :=
  inferInstanceAs (Decidable (∀ node ∈ descendantsIn nodes, node.isMedia →
    ViewportFree toggle node.children → Unguarded toggle node.children))

/-- A run skips guarded rules, apart from those in media blocks without a rule that is
scoped to the viewport.  It skips all of them if no media block has only rules that are
scoped to the preview. -/
theorem runToggle_skips (options : Options) (source : Option String) (settled : Bool)
    (children : List Node) :
    ∃ nodes,
      (runToggle options (.block source .sheet settled children)).value =
          .block source .sheet false
            ((Toggle.ofOptions options).addedContext source children ++ nodes) ∧
        Skips (Toggle.ofOptions options) (ViewportFree (Toggle.ofOptions options))
            (clearMarksIn children) nodes ∧
          (GuardsPaired (Toggle.ofOptions options) children →
            Skips (Toggle.ofOptions options) (Unguarded (Toggle.ofOptions options))
              (clearMarksIn children) nodes) := by
  have skips := (Toggle.ofOptions options).skips_walkShare (Place.outside.within source .sheet)
    (unmarked_clearMarksIn children)
  refine ⟨_, value_runToggle_eq_flatMap options source .sheet settled children, skips, ?_⟩
  intro guardsPaired
  refine skips.imp ?_
  simpa [GuardsPaired, descendantsIn_clearMarksIn, EachSelector] using guardsPaired

/-- Nodes of a sheet with rules that are guarded by hand: on their own, and in media
blocks with and without conditions. -/
def guardedNodes : List Node :=
  [wideRule "body[data-breakpoint-preview-mode] .a" [],
    blockAround "media" "(min-width: 600px)"
      [wideRule "body:not([data-breakpoint-preview-mode]) .b" [],
        wideRule "body[data-breakpoint-preview-mode] .b" [],
        wideRule ".c" []],
    blockAround "media" "screen"
      [wideRule "body:not([data-breakpoint-preview-mode]) .d" []],
    blockAround "media" "(max-width: 900px)" [wideRule ".e" []]]

theorem runToggle_skips_guardedNodes :
    GuardsPaired (Toggle.ofOptions {}) guardedNodes ∧
      ∃ nodes,
        (runToggle {} (.block none .sheet false guardedNodes)).value =
            .block none .sheet false
              ((Toggle.ofOptions {}).addedContext none guardedNodes ++ nodes) ∧
          Skips (Toggle.ofOptions {}) (Unguarded (Toggle.ofOptions {}))
            (clearMarksIn guardedNodes) nodes := by
  have guardsPaired : GuardsPaired (Toggle.ofOptions {}) guardedNodes := by decide
  rcases runToggle_skips {} none false guardedNodes with ⟨nodes, isRun, -, skips⟩
  exact ⟨guardsPaired, nodes, isRun, skips guardsPaired⟩

/-- A media block with the given parameters around a rule that is scoped to the
preview. -/
def previewGuarded (params : String) : List Node :=
  [blockAround "media" params [wideRule "body[data-breakpoint-preview-mode] .p" []]]

/-- A run does not skip a rule that is scoped to the preview in every media block: under
conditions the block gets a container block, and without any the rule is forked. -/
theorem not_skips_previewGuarded :
    (¬ Skips (Toggle.ofOptions {}) (Unguarded (Toggle.ofOptions {}))
        (previewGuarded "(min-width: 600px)")
        (runToggle {} (.block none .sheet false
          (previewGuarded "(min-width: 600px)"))).value.children) ∧
      ¬ Skips (Toggle.ofOptions {}) (Unguarded (Toggle.ofOptions {})) (previewGuarded "screen")
        (runToggle {} (.block none .sheet false (previewGuarded "screen"))).value.children := by
  have guarded : (Toggle.ofOptions {}).isGuarded "body[data-breakpoint-preview-mode] .p" := by
    decide
  have notExempt : ¬ Unguarded (Toggle.ofOptions {})
      [wideRule "body[data-breakpoint-preview-mode] .p" []] := by
    decide
  constructor
  · have twoNodes : (runToggle {} (.block none .sheet false
        (previewGuarded "(min-width: 600px)"))).value.children.length = 2 := by
      decide +kernel
    intro skips
    obtain ⟨children', isAlone, -⟩ := skips.alone_of_not_exempt (by simp) notExempt
    rw [isAlone] at twoNodes
    cases twoNodes
  · have twoRules : (runToggle {} (.block none .sheet false
        (previewGuarded "screen"))).value.children.flatMap (·.children.map Node.selector?) =
          [some "body:not([data-breakpoint-preview-mode])[data-breakpoint-preview-mode] .p",
            some "body[data-breakpoint-preview-mode][data-breakpoint-preview-mode] .p"] := by
      decide +kernel
    intro skips
    obtain ⟨children', isAlone, ofChildren⟩ := skips.alone_of_not_exempt (by simp) notExempt
    obtain ⟨inner, rfl⟩ := ofChildren.alone_of_guarded guarded
    rw [isAlone] at twoRules
    simp [Node.children] at twoRules

end ContainerPreview
