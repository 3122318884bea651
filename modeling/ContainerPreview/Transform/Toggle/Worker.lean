import ContainerPreview.Forest.Walk
import ContainerPreview.Transform.Toggle.Pass
import ContainerPreview.Value.Depth

/-!
# The toggle pass on a forest

The pass over trees makes a new tree out of an old one.  A program that holds
the nodes of a sheet in a forest does the same work in place: it walks over the
nodes, assigns selectors and values, clones rules, and puts the clones beside
the nodes that they come from.  It keeps a list of the nodes that it is done
with.  What it reports on the way does not change what it does and is left out.

Each of its edits can fail, and whether one does depends on where the nodes
stand at that moment.  A step of the work that fails ends the whole pass.  So
does a node with more levels below it than the stack reaches down, and a value
with calls nested deeper than the stack reaches.
-/

namespace ContainerPreview

/-! ## Looking at nodes -/

namespace Kind

/-- What a block is. -/
def head? : Kind → Option Head
  | .block head => some head
  | _ => none

@[simp]
theorem head?_leaf (content : Leaf) : (leaf content).head? = none :=
  rfl

@[simp]
theorem head?_block (head : Head) : (block head).head? = some head :=
  rfl

/-- The selector list of a rule. -/
def selector? : Kind → Option String
  | .block (.rule selector) => some selector
  | _ => none

/-- The declaration that a leaf holds. -/
def declaration? : Kind → Option Declaration
  | .leaf (.declaration declaration) => some declaration
  | _ => none

end Kind

namespace Forest

/-- What the block with a number is. -/
def head? (forest : Forest) (id : NodeId) : Option Head :=
  (forest.cell id).kind.head?

/-- The selector list of the rule with a number. -/
def selector? (forest : Forest) (id : NodeId) : Option String :=
  (forest.cell id).kind.selector?

/-- The declaration with a number. -/
def declaration? (forest : Forest) (id : NodeId) : Option Declaration :=
  (forest.cell id).kind.declaration?

/-- The node stands directly in keyframes. -/
def isInKeyframes (forest : Forest) (id : NodeId) : Bool :=
  (forest.parent? id).any fun parent => (forest.head? parent).any Head.isKeyframes

/-- A media or container block is around the node, looking up as many levels as
given. -/
def isInQuery (forest : Forest) : Nat → NodeId → Bool
  | 0, _ => false
  | levels + 1, id =>
      match forest.parent? id with
      | none => false
      | some parent => (forest.head? parent).any Head.isQuery || forest.isInQuery levels parent

end Forest

/-- What a pass works on: the forest, and the nodes that the pass is done with. -/
abbrev Stage := Forest.Visited (List NodeId)

/-- A step of a pass: it changes the forest, may be done with nodes, and gives a
result or fails.  It is told how many calls deep into a value the stack reaches. -/
abbrev Step (α : Type) := ReaderT Nat (ExceptT EditError (StateM Stage)) α

namespace Step

/-- The result of a step together with what it leaves. -/
def apply {α : Type} (step : Step α) (calls : Nat) (stage : Stage) : Except EditError α × Stage :=
  (step.run calls).run.run stage

/-- An edit as a step. -/
def edit {α : Type} (edit : Edit α) : Step α := fun _ =>
  ExceptT.mk fun stage =>
    let (result, forest) := edit.apply stage.1
    (result, forest, stage.2)

/-- Assigns a text to an attribute of a node. -/
def assign (id : NodeId) (name text : String) : Step Unit :=
  edit (Forest.assign id name (.text text))

/-- The pass is done with a node. -/
def settle (id : NodeId) : Step Unit :=
  modify fun stage => (stage.1, id :: stage.2)

/-- The stack reaches as many calls deep into a value. -/
def reach (depth : Nat) : Step Unit := do
  if (← read) < depth then throw .tooDeep

end Step

/-- A toggle at work on a forest, and how many levels down from a node the stack
reaches. -/
structure Worker where
  toggle : Toggle
  levels : Nat

/-- Nodes of a media block that get one container block, and its conditions. -/
structure Group where
  conditions : List String
  nodes : List NodeId

namespace Worker

open Forest Step

variable (worker : Worker)

/-! ## Looking below nodes -/

/-- The declarations at any depth below a node. -/
def declarations (forest : Forest) (id : NodeId) : List Declaration :=
  (forest.belowTo worker.levels id).filterMap forest.declaration?

/-- A declaration below the node has a fixed position. -/
def hasFixed (forest : Forest) (id : NodeId) : Bool :=
  (worker.declarations forest id).any Declaration.isFixed

/-- The rule needs a container variant. -/
def needsVariant (forest : Forest) (id : NodeId) : Bool :=
  worker.hasFixed forest id || (worker.declarations forest id).any fun declaration =>
    worker.toggle.converter.hasUnits declaration.value

/-- A rule below the node is scoped to the viewport. -/
def isScoped (forest : Forest) (id : NodeId) : Bool :=
  ((forest.belowTo worker.levels id).filterMap forest.selector?).any fun selector =>
    Text.contains selector worker.toggle.viewportGuard

/-- The node itself if it is a rule, and the rules below an at-rule that are not
directly in keyframes. -/
def rules (forest : Forest) (id : NodeId) : List NodeId :=
  match forest.head? id with
  | some (.rule _) => [id]
  | some (.atRule _ _ _) => (forest.belowTo worker.levels id).filter fun node =>
      isRule (forest.cell node).kind && !forest.isInKeyframes node
  | _ => []

/-! ## Declarations -/

/-- The value of a fixed position becomes sticky. -/
def makeSticky (id : NodeId) : Step Unit := do
  match (← get).1.declaration? id with
  | none => return ()
  | some declaration =>
      if declaration.isFixedValue then assign id "value" "sticky"

/-- An offset goes behind its variable, which is declared in front of it. -/
def hideOffset (id : NodeId) : Step Unit := do
  let forest := (← get).1
  match forest.declaration? id with
  | none => return ()
  | some declaration =>
      let content := Leaf.declaration declaration.variableDeclaration
      let holder ← edit (create (.leaf content) (forest.cell id).source)
      edit (before id [holder])
      assign id "value" declaration.referToVariable.value

/-- The units of a value are converted, except for some properties. -/
def convertValue (skipped : List String) (id : NodeId) : Step Unit := do
  match (← get).1.declaration? id with
  | none => return ()
  | some declaration =>
      if !skipped.contains declaration.property then
        reach (worker.toggle.converter.depthFor declaration.property declaration.value)
        if worker.toggle.converter.changes declaration then
          assign id "value" (worker.toggle.converter.convertDeclaration declaration).value

/-- Does something with every declaration below a node that is there at the
start, be it of one property or of any. -/
def eachDeclaration (id : NodeId) (property : Option String) (work : NodeId → Step Unit) :
    Step Unit := do
  let forest := (← get).1
  let found := (forest.belowTo worker.levels id).filter fun node =>
    isDeclaration property (forest.cell node).kind
  found.forM work

/-- Makes the declarations below a rule fit for the container. -/
def process (rule : NodeId) : Step Unit := do
  let fixed := worker.hasFixed (← get).1 rule
  if fixed then
    worker.eachDeclaration rule (some "position") makeSticky
    edges.forM fun edge => worker.eachDeclaration rule (some edge) hideOffset
  let skipped := if fixed then "position" :: edges else []
  worker.eachDeclaration rule none (worker.convertValue skipped)

/-! ## Rules -/

/-- Scopes a rule to the viewport and puts its container variant after it, if it
needs one. -/
def forkRule (rule : NodeId) : Step Unit := do
  let forest := (← get).1
  match forest.selector? rule with
  | none => return ()
  | some selector =>
      if worker.needsVariant forest rule then
        let overrides := [("selector", .text (worker.toggle.scopeToPreview selector))]
        let variant ← edit (clone rule overrides)
        assign rule "selector" (worker.toggle.scopeToViewport selector)
        worker.process variant
        edit (after rule [variant])
        settle variant
      else assign rule "selector" (worker.toggle.keepInBothModes selector)

/-- Forks a rule unless the pass is done with it. -/
def forkOnce (rule : NodeId) : Step Unit := do
  if !(← get).2.contains rule then
    worker.forkRule rule
    settle rule

/-- Scopes a rule to the viewport unless it is guarded already. -/
def guardRule (rule : NodeId) : Step Unit := do
  match (← get).1.selector? rule with
  | none => return ()
  | some selector =>
      if !worker.toggle.isGuarded selector then
        assign rule "selector" (worker.toggle.scopeToViewport selector)
      settle rule

/-- Converts a rule of a copy for the preview. -/
def placeRule (rule : NodeId) : Step Unit := do
  match (← get).1.selector? rule with
  | none => return ()
  | some selector =>
      assign rule "selector" (worker.toggle.placeInPreview selector)
      worker.process rule
      settle rule

/-- Visits a rule: forks it unless it is done, stands where rules are treated by
the block around them, or is guarded already. -/
def visitRule (rule : NodeId) (selector : String) : Step Unit := do
  let stage ← get
  if !(stage.2.contains rule || stage.1.isInQuery (stage.1.size + 1) rule ||
      stage.1.isInKeyframes rule) then
    if !worker.toggle.isGuarded selector then worker.forkRule rule
    settle rule

/-! ## Media blocks -/

/-- Is done with the media blocks below a node. -/
def settleMedia (id : NodeId) : Step Unit := do
  let forest := (← get).1
  let media := (forest.belowTo worker.levels id).filter fun node =>
    isAtRule (some "media") (forest.cell node).kind
  media.forM settle

/-- The nodes that a child of a media block under conditions adds to the group of
the block, and the groups that it gives itself if it is a media block, which
`collect` finds below it. -/
def collectChild (collect : List String → NodeId → Step (List Group)) (conditions : List String)
    (child : NodeId) : Step (List NodeId × List Group) := do
  let forest := (← get).1
  match forest.head? child with
  | some (.atRule "media" params _) =>
      settle child
      match (Media.conditions worker.toggle.hook params).value with
      | none =>
          worker.settleMedia child
          return ([], [])
      | some inner => return ([], ← collect (Media.combine conditions inner) child)
  | some (.rule _) => return ([child], [])
  | some (.atRule name params hasBlock) =>
      if !(Head.atRule name params hasBlock).isKeyframes &&
          !(worker.rules forest child).isEmpty then
        return ([child], [])
      else return ([], [])
  | _ => return ([], [])

/-- The groups of a media block under conditions and of the media blocks directly
in it, down to as many levels as given. -/
def collect : Nat → List String → NodeId → Step (List Group)
  | 0, _, _ => throw .tooDeep
  | levels + 1, conditions, block => do
      let children := (← get).1.children block
      let found ← children.mapM (worker.collectChild (collect levels) conditions)
      return { conditions, nodes := found.flatMap Prod.fst } :: found.flatMap Prod.snd

/-- Does something with each of the rules of a node that are there at the
start. -/
def eachRule (work : NodeId → Step Unit) (id : NodeId) : Step Unit := do
  (worker.rules (← get).1 id).forM work

/-- Puts a converted copy of a node into a container block. -/
def addCopy (container node : NodeId) : Step Unit := do
  let copy ← edit (clone node [])
  worker.eachRule worker.placeRule copy
  edit (append container [copy])

/-- The container block of a group, with converted copies of its nodes. -/
def containerBlock (group : Group) : Step NodeId := do
  let head := Head.atRule "container" (String.intercalate ", " group.conditions) true
  let container ← edit (create (.block head) none)
  group.nodes.forM (worker.addCopy container)
  return container

/-- Treats a group: its nodes get a container block and are scoped to the
viewport, or are forked where they are if there are no conditions. -/
def treatGroup (group : Group) : Step (List NodeId) := do
  if group.nodes.isEmpty then return []
  else if group.conditions.isEmpty then
    group.nodes.forM (worker.eachRule worker.forkOnce)
    return []
  else
    let container ← worker.containerBlock group
    group.nodes.forM (worker.eachRule worker.guardRule)
    return [container]

/-- Visits a media block: reads its conditions, collects its groups and treats
them.  The container blocks come after it. -/
def visitMedia (block : NodeId) (params : String) : Step Unit := do
  if !(← get).2.contains block then
    settle block
    if !worker.isScoped (← get).1 block then
      match (Media.conditions worker.toggle.hook params).value with
      | none => worker.settleMedia block
      | some conditions =>
          let groups ← worker.collect worker.levels conditions block
          let containers := (← groups.mapM worker.treatGroup).flatten
          if !containers.isEmpty then
            edit (after block containers)
            containers.forM settle

/-! ## The pass -/

/-- The stack reaches down to all nodes below a node. -/
def check (id : NodeId) : Step Unit := do
  if !(← get).1.isWithin worker.levels id then throw .tooDeep

/-- Visits a node. -/
def visit (id : NodeId) : Step Unit := do
  worker.check id
  match (← get).1.head? id with
  | some (.rule selector) => worker.visitRule id selector
  | some (.atRule "media" params _) => worker.visitMedia id params
  | _ => return ()

/-- The visitor of the walk.  It stops at the first failure and keeps it. -/
def visitor (calls : Nat) : Visitor (List NodeId × Option EditError) := fun id state =>
  match (worker.visit id).apply calls (state.1, state.2.1) with
  | (.ok (), forest, done) => (.goOn, forest, done, state.2.2)
  | (.error error, forest, done) => (.stop, forest, done, some error)

/-- Puts the context rule in front of the sheet if it is needed and missing. -/
def addContext (root : NodeId) : Step Unit := do
  let forest := (← get).1
  if worker.hasFixed forest root then
    let isThere := (forest.children root).any fun node =>
      forest.selector? node == some worker.toggle.previewGuard
    if !isThere then
      let position : Declaration := { property := "position", value := "relative" }
      let contain : Declaration := { property := "contain", value := "layout" }
      let first ← edit (create (.leaf (.declaration position)) none)
      let second ← edit (create (.leaf (.declaration contain)) none)
      let rule ← edit (createWith (.block (.rule worker.toggle.previewGuard))
        (forest.cell root).source [first, second])
      edit (prepend root [rule])
      settle rule

/-- Walks over the nodes below the top, in as many steps as given. -/
def walk (steps : Nat) (root : NodeId) : Step Unit := do
  let (forest, done) ← get
  let visitor := worker.visitor (← read)
  let (ended, forest, done, failure) := Forest.walk visitor steps root (forest, done, none)
  set ((forest, done) : Stage)
  match failure, ended with
  | some error, _ => throw error
  | none, .finished => return ()
  | none, _ => throw .tooDeep

/-- The whole pass. -/
def run (steps : Nat) (root : NodeId) : Step Unit := do
  worker.check root
  worker.addContext root
  worker.walk steps root

end Worker

/-- Runs the toggle over the tree below a node of a forest, with a stack that
reaches as many levels down and as many calls deep into a value, and with a walk
of as many steps as given. -/
def Forest.toggle (options : Options) (levels calls steps : Nat) (root : NodeId) : Edit Unit :=
  ExceptT.mk fun forest =>
    let worker : Worker := { toggle := .ofOptions options, levels }
    let (result, forest, _) := (worker.run steps root).apply calls (forest, [])
    (result, forest)

end ContainerPreview
