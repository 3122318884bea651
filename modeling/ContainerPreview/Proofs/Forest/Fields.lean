import ContainerPreview.Proofs.Forest.Linked

/-!
# Attributes of a node that are overwritten

Every node has a field for its file and those of its kind.  A value under any other name that it
has from its class covers what is there.  Neither the parent nor the children of a node can be
overwritten, so overwriting attributes one after another changes no links.  It fails at the first
name that is refused: because the node has no attribute of that name, because the attribute is a
link, or because it cannot be assigned.  Which names are refused depends on the class of the node
alone, which no overwriting changes.
-/

namespace ContainerPreview

/-- The value of a field that belongs to a kind of node. -/
def Kind.field? (field : String) : Kind → Option FieldValue
  | .leaf (.declaration content) =>
      if field = "prop" then some (.text content.property)
      else if field = "value" then some (.text content.value)
      else if field = "important" then some (.flag content.important)
      else none
  | .leaf (.comment text) => if field = "text" then some (.text text) else none
  | .block (.rule selector) => if field = "selector" then some (.text selector) else none
  | .block (.atRule name params hasBlock) =>
      if field = "name" then some (.text name)
      else if field = "params" then some (.text params)
      else if field = "has_block" then some (.flag hasBlock)
      else none
  | .block .sheet | .generic | .container => none

/-- The value of a field of a node. -/
def Cell.field? (field : String) (cell : Cell) : Option FieldValue :=
  if field = "source" then some (cell.source.elim .none .text) else cell.kind.field? field

/-- A value is of the sort that a field of the given name holds: a flag, a text, or for the file
a text or nothing. -/
def FieldValue.fits (field : String) : FieldValue → Bool
  | .text _ => field != "important" && field != "has_block"
  | .flag _ => field == "important" || field == "has_block"
  | .none => field == "source"

namespace Forest

variable {forest forest' : Forest} {id : NodeId} {cell changed : Cell} {kind kind' : Kind}
  {field other : String} {value : FieldValue} {overrides : List (String × FieldValue)}

/-! ## Overwriting one field -/

theorem isSome_setContent? (kind : Kind) (field : String) (value : FieldValue) :
    (setContent? kind field value).isSome = (kind.field? field).isSome := by
  unfold setContent?
  split
  case h_9 => rcases kind with _ | _ | (_ | _) | (_ | _ | _) <;> simp_all [Kind.field?]
  all_goals rfl

theorem field?_setContent?_of_ne (isSet : setContent? kind field value = some kind')
    (different : other ≠ field) : kind'.field? other = kind.field? other := by
  unfold setContent? at isSet
  split at isSet <;> cases isSet <;> simp [Kind.field?, different]

theorem field?_setContent?_self (isSet : setContent? kind field value = some kind')
    (fits : value.fits field) : kind'.field? field = some value := by
  unfold setContent? at isSet
  split at isSet <;> cases isSet <;> cases value <;>
    first | rfl | simp [FieldValue.fits] at fits

/-- A kind keeps its fields and its class. -/
theorem same_setContent? (isSet : setContent? kind field value = some kind') (other : String) :
    (kind'.field? other).isSome = (kind.field? other).isSome ∧
      kind'.className = kind.className := by
  unfold setContent? at isSet
  split at isSet <;> cases isSet <;> simp [Kind.field?, Kind.className, apply_ite Option.isSome]

theorem setField?_cases (isSet : setField? cell field value = some changed) :
    (field = "source" ∧ changed = { cell with source := value.asSource }) ∨
      (field ≠ "source" ∧ ∃ kind, setContent? cell.kind field value = some kind ∧
        changed = { cell with kind }) := by
  rw [setField?] at isSet
  split at isSet
  · rename_i isSource
    exact .inl ⟨eq_of_beq isSource, (Option.some.inj isSet).symm⟩
  · rename_i notSource
    obtain ⟨kind, isKind, rfl⟩ := Option.map_eq_some_iff.mp isSet
    exact .inr ⟨fun same => notSource (beq_iff_eq.mpr same), kind, isKind, rfl⟩

theorem isSome_setField? (cell : Cell) (field : String) (value : FieldValue) :
    (setField? cell field value).isSome = (cell.field? field).isSome := by
  by_cases isSource : field = "source"
  · simp [setField?, Cell.field?, isSource]
  · simp [setField?, Cell.field?, isSource, isSome_setContent?]

section Set

variable (isSet : setField? cell field value = some changed)

include isSet

theorem field?_setField?_of_ne (different : other ≠ field) :
    changed.field? other = cell.field? other := by
  rcases setField?_cases isSet with ⟨rfl, rfl⟩ | ⟨-, kind, isKind, rfl⟩
  · rw [Cell.field?, Cell.field?, if_neg different, if_neg different]
  · rw [Cell.field?, Cell.field?, field?_setContent?_of_ne isKind different]

theorem field?_setField?_self (fits : value.fits field) : changed.field? field = some value := by
  rcases setField?_cases isSet with ⟨rfl, rfl⟩ | ⟨notSource, kind, isKind, rfl⟩
  · cases value with
    | text text => rfl
    | flag flag => simp [FieldValue.fits] at fits
    | none => rfl
  · rw [Cell.field?, if_neg notSource, field?_setContent?_self isKind fits]

/-- A node keeps its fields and its class. -/
theorem same_setField? (other : String) :
    (changed.field? other).isSome = (cell.field? other).isSome ∧
      changed.kind.className = cell.kind.className := by
  rcases setField?_cases isSet with ⟨rfl, rfl⟩ | ⟨-, kind, isKind, rfl⟩
  · refine ⟨?_, rfl⟩
    rw [Cell.field?, Cell.field?]
    split <;> rfl
  · obtain ⟨sameFields, sameClass⟩ := same_setContent? isKind other
    refine ⟨?_, sameClass⟩
    rw [Cell.field?, Cell.field?]
    split
    · rfl
    · exact sameFields

end Set

theorem covers_setField? (isSet : setField? cell field value = some changed) :
    changed.covers = cell.covers := by
  rcases setField?_cases isSet with ⟨-, rfl⟩ | ⟨-, kind, -, rfl⟩ <;> rfl

/-! ## Overwriting one attribute -/

/-- Why an attribute of a node cannot be overwritten, if it cannot. -/
def refusal? (kindName : String) (cell : Cell) (entry : String × FieldValue) : Option EditError :=
  match overwrite kindName cell entry.1 entry.2 with
  | .ok _ => none
  | .error error => some error

theorem refusal?_eq_none_iff {kindName : String} {entry : String × FieldValue} :
    refusal? kindName cell entry = none ↔
      ∃ changed, overwrite kindName cell entry.1 entry.2 = .ok changed := by
  rw [refusal?]
  cases overwrite kindName cell entry.1 entry.2 <;> simp

theorem refusal?_eq_some_iff {kindName : String} {entry : String × FieldValue} {error : EditError} :
    refusal? kindName cell entry = some error ↔
      overwrite kindName cell entry.1 entry.2 = .error error := by
  rw [refusal?]
  cases overwrite kindName cell entry.1 entry.2 <;> simp

/-- A field takes the value, and under any other name the value covers what the node has. -/
theorem overwrite_cases {kindName name : String}
    (isSet : overwrite kindName cell name value = .ok changed) :
    setField? cell name value = some changed ∨
      cell.field? name = none ∧ changed = { cell with covers := (name, value) :: cell.covers } := by
  rw [overwrite] at isSet
  split at isSet
  · cases isSet
  · rw [setAttribute] at isSet
    split at isSet
    · rename_i isField
      exact .inl (isField.trans (congrArg some (Except.ok.inj isSet)))
    · rename_i noField
      split_ifs at isSet
      have isNone : (cell.field? name).isSome = false := by
        rw [← isSome_setField? cell name value, noField]
        rfl
      exact .inr ⟨Option.not_isSome_iff_eq_none.mp (by simp [isNone]),
        (Except.ok.inj isSet).symm⟩

/-- Kinds of one class have the same attributes. -/
theorem same_of_className {kind kind' : Kind} (same : kind'.className = kind.className) :
    kind'.isContainer = kind.isContainer ∧ kind'.fieldNames = kind.fieldNames ∧
      kind'.computedNames = kind.computedNames ∧
      ∀ field, (kind'.field? field).isSome = (kind.field? field).isSome := by
  rcases kind with _ | _ | (_ | _) | (_ | _ | _) <;>
    rcases kind' with _ | _ | (_ | _) | (_ | _ | _) <;>
      simp [Kind.className] at same <;>
        simp [Kind.isContainer, Kind.fieldNames, Kind.computedNames, Kind.field?,
          apply_ite Option.isSome]

/-- What is refused depends on the class of the node only. -/
theorem refusal?_congr {cell' : Cell} (same : cell'.kind.className = cell.kind.className)
    (kindName : String) (entry : String × FieldValue) :
    refusal? kindName cell' entry = refusal? kindName cell entry := by
  obtain ⟨sameContainer, sameFields, sameComputed, sameField⟩ := same_of_className same
  have sameHas : cell'.kind.hasAttribute entry.1 = cell.kind.hasAttribute entry.1 := by
    simp only [Kind.hasAttribute, Kind.linkNames, sameContainer, sameFields, sameComputed]
  have sameSet : (setField? cell' entry.1 entry.2).isSome =
      (setField? cell entry.1 entry.2).isSome := by
    rw [isSome_setField?, isSome_setField?, Cell.field?, Cell.field?]
    split
    · rfl
    · exact sameField entry.1
  rw [refusal?, refusal?, overwrite, overwrite, sameHas]
  split_ifs with isRefused
  · rfl
  · rw [setAttribute, setAttribute, sameComputed, same]
    cases isSet : setField? cell entry.1 entry.2 <;>
      cases isSet' : setField? cell' entry.1 entry.2 <;>
        rw [isSet, isSet'] at sameSet
    · dsimp only
      split_ifs <;> rfl
    · cases sameSet
    · cases sameSet

section Overwritten

variable {kindName name : String} (isSet : overwrite kindName cell name value = .ok changed)

include isSet

/-- A node keeps its fields and its class. -/
theorem same_overwrite (other : String) :
    (changed.field? other).isSome = (cell.field? other).isSome ∧
      changed.kind.className = cell.kind.className := by
  rcases overwrite_cases isSet with isField | ⟨-, rfl⟩
  · exact same_setField? isField other
  · exact ⟨rfl, rfl⟩

theorem field?_overwrite_of_ne (different : other ≠ name) :
    changed.field? other = cell.field? other := by
  rcases overwrite_cases isSet with isField | ⟨-, rfl⟩
  · exact field?_setField?_of_ne isField different
  · rfl

theorem field?_overwrite_self (isField : (cell.field? name).isSome) (fits : value.fits name) :
    changed.field? name = some value := by
  rcases overwrite_cases isSet with isSet | ⟨noField, -⟩
  · exact field?_setField?_self isSet fits
  · rw [noField] at isField
    cases isField

/-- A value under the name of a field covers nothing, and any other one covers what it is assigned
to. -/
theorem cover?_overwrite (other : String) :
    changed.cover? other =
      if other = name ∧ (cell.field? other).isSome = false then some value
      else cell.cover? other := by
  rcases overwrite_cases isSet with isField | ⟨noField, rfl⟩
  · have isSome : (cell.field? name).isSome := by
      rw [← isSome_setField? cell name value, isField]
      rfl
    rw [Cell.cover?, covers_setField? isField, if_neg]
    · rfl
    · rintro ⟨rfl, isNone⟩
      exact Bool.false_ne_true (isNone.symm.trans isSome)
  · by_cases same : other = name
    · subst same
      simp [Cell.cover?, noField]
    · simp [Cell.cover?, same, List.lookup_cons, beq_false_of_ne same]

end Overwritten

/-! ## Overwriting one attribute after another -/

/-- The value that is given last under a name. -/
def lastValue? : List (String × FieldValue) → String → Option FieldValue
  | [], _ => none
  | (name, value) :: overrides, other =>
      (lastValue? overrides other).or (if other = name then some value else none)

/-- Attributes of one node have been overwritten, and nothing else has changed.  A field has the
value that is given last, if it fits, and any other name is covered by it. -/
structure Overridden (forest forest' : Forest) (id : NodeId)
    (overrides : List (String × FieldValue)) : Prop where
  size : forest'.size = forest.size
  others : ∀ other ≠ id, forest'.cell other = forest.cell other
  parent : forest'.parent? id = forest.parent? id
  children : forest'.children id = forest.children id
  className : (forest'.cell id).kind.className = (forest.cell id).kind.className
  isSome : ∀ field, ((forest'.cell id).field? field).isSome = ((forest.cell id).field? field).isSome
  kept : ∀ field, field ∉ overrides.map Prod.fst →
    (forest'.cell id).field? field = (forest.cell id).field? field
  given : ∀ field value, lastValue? overrides field = some value →
    ((forest.cell id).field? field).isSome → value.fits field →
      (forest'.cell id).field? field = some value
  covers : ∀ name, (forest'.cell id).cover? name =
    if ((forest.cell id).field? name).isSome then (forest.cell id).cover? name
    else (lastValue? overrides name).or ((forest.cell id).cover? name)

theorem notMem_of_lastValue? (noValue : lastValue? overrides field = none) :
    field ∉ overrides.map Prod.fst := by
  induction overrides with
  | nil => exact List.not_mem_nil
  | cons entry overrides inductionHypothesis =>
      obtain ⟨noneLater, notHere⟩ := Option.or_eq_none_iff.mp noValue
      refine List.not_mem_cons_of_ne_of_not_mem (fun same => ?_) (inductionHypothesis noneLater)
      rw [if_pos same] at notHere
      cases notHere

theorem Overridden.refl (forest : Forest) (id : NodeId) : Overridden forest forest id [] :=
  ⟨rfl, fun _ _ => rfl, rfl, rfl, rfl, fun _ => rfl, fun _ _ => rfl, nofun, fun name => by
    simp [lastValue?]⟩

/-- One attribute, and then the others. -/
theorem Overridden.cons {kindName : String} (inUse : id < forest.size)
    (isSet : overwrite kindName (forest.cell id) field value = .ok changed)
    (overridden : Overridden (forest.update id fun _ => changed) forest' id overrides) :
    Overridden forest forest' id ((field, value) :: overrides) := by
  have isChanged : (forest.update id fun _ => changed).cell id = changed := cell_update_self inUse _
  have sameLinks := (eq_of_overwrite isSet).1
  refine ⟨overridden.size.trans (size_update ..), fun other different => ?_, ?_, ?_, ?_,
    fun other => ?_, fun other isMissing => ?_, fun other last isLast isField fits => ?_,
    fun name => ?_⟩
  · exact (overridden.others other different).trans (cell_update_of_ne different _)
  · rw [overridden.parent, parent?, isChanged, sameLinks]
    rfl
  · rw [overridden.children, Forest.children, isChanged, sameLinks]
    rfl
  · rw [overridden.className, isChanged]
    exact (same_overwrite isSet field).2
  · rw [overridden.isSome, isChanged]
    exact (same_overwrite isSet other).1
  · obtain ⟨different, isMissing⟩ := not_or.mp (List.mem_cons.not.mp isMissing)
    rw [overridden.kept other isMissing, isChanged, field?_overwrite_of_ne isSet different]
  · rw [lastValue?] at isLast
    cases later : lastValue? overrides other with
    | some value =>
        rw [later, Option.some_or] at isLast
        refine overridden.given other last (later.trans isLast) ?_ fits
        rwa [isChanged, (same_overwrite isSet other).1]
    | none =>
        rw [later, Option.none_or] at isLast
        split at isLast
        · rename_i same
          cases isLast
          rw [overridden.kept other (notMem_of_lastValue? later), isChanged]
          subst same
          exact field?_overwrite_self isSet isField fits
        · cases isLast
  · rw [overridden.covers, isChanged, (same_overwrite isSet name).1, cover?_overwrite isSet,
      lastValue?]
    cases isField : ((forest.cell id).field? name).isSome with
    | true => simp
    | false =>
        rw [if_neg Bool.false_ne_true, if_neg Bool.false_ne_true]
        by_cases same : name = field <;> simp [same]

/-- Names that are not refused can all be overwritten. -/
theorem exists_overridden {kindName : String} (inUse : id < forest.size)
    (accepted : ∀ entry ∈ overrides, refusal? kindName (forest.cell id) entry = none) :
    ∃ forest', (override kindName id overrides).apply forest = (.ok (), forest') ∧
      Overridden forest forest' id overrides := by
  induction overrides generalizing forest with
  | nil => exact ⟨forest, rfl, .refl forest id⟩
  | cons entry overrides inductionHypothesis =>
      obtain ⟨here, later⟩ := List.forall_mem_cons.mp accepted
      obtain ⟨changed, isSet⟩ := refusal?_eq_none_iff.mp here
      have isChanged : (forest.update id fun _ => changed).cell id = changed :=
        cell_update_self inUse _
      have later' : ∀ next ∈ overrides,
          refusal? kindName ((forest.update id fun _ => changed).cell id) next = none := by
        intro next member
        rw [isChanged, refusal?_congr (same_overwrite isSet "").2]
        exact later next member
      obtain ⟨forest', done, overridden⟩ :=
        inductionHypothesis ((size_update ..).symm ▸ inUse) later'
      refine ⟨forest', ?_, overridden.cons inUse isSet⟩
      rw [apply_override_cons, isSet]
      exact done

/-- The first name that is refused is reported. -/
theorem apply_override_fails {kindName : String} {entry : String × FieldValue} {error : EditError}
    (inUse : id < forest.size)
    (isFirst : overrides.find? (fun entry => (refusal? kindName (forest.cell id) entry).isSome) =
      some entry) (isRefusal : refusal? kindName (forest.cell id) entry = some error) :
    ∃ forest', (override kindName id overrides).apply forest = (.error error, forest') := by
  induction overrides generalizing forest with
  | nil => cases isFirst
  | cons first overrides inductionHypothesis =>
      rw [apply_override_cons]
      cases isSet : overwrite kindName (forest.cell id) first.1 first.2 with
      | error error' =>
          have isError := refusal?_eq_some_iff.mpr isSet
          rw [List.find?_cons_of_pos (by rw [isError]; rfl), Option.some.injEq] at isFirst
          rw [isFirst, isRefusal] at isError
          exact ⟨forest, by rw [Option.some.inj isError]⟩
      | ok changed =>
          have accepted := refusal?_eq_none_iff.mpr ⟨changed, isSet⟩
          have isChanged : (forest.update id fun _ => changed).cell id = changed :=
            cell_update_self inUse _
          have same : ∀ entry, refusal? kindName ((forest.update id fun _ => changed).cell id)
              entry = refusal? kindName (forest.cell id) entry := fun entry => by
            rw [isChanged, refusal?_congr (same_overwrite isSet "").2]
          rw [List.find?_cons_of_neg (by rw [accepted]; simp)] at isFirst
          refine inductionHypothesis ((size_update ..).symm ▸ inUse) ?_ ((same entry).trans isRefusal)
          simpa only [same] using isFirst

theorem isSome_field?_iff (kind : Kind) (field : String) :
    (kind.field? field).isSome ↔ field ∈ kind.fieldNames := by
  rcases kind with _ | _ | (_ | _) | (_ | _ | _) <;>
    simp [Kind.field?, Kind.fieldNames, apply_ite Option.isSome]

/-- A field can be assigned. -/
theorem assignable_of_isSome_field? (isField : (cell.field? field).isSome) :
    ¬ (field ∈ cell.kind.computedNames ∨ field = "__weakref__") ∧ field ∉ Kind.specialNames := by
  have isName : field ∈ "source" :: cell.kind.fieldNames := by
    rw [Cell.field?] at isField
    split at isField
    · rename_i isSource
      exact isSource ▸ List.mem_cons_self
    · exact List.mem_cons_of_mem _ ((isSome_field?_iff ..).mp isField)
  have apart : ∀ kind : Kind, ∀ name ∈ "source" :: kind.fieldNames,
      ¬ (name ∈ kind.computedNames ∨ name = "__weakref__") ∧ name ∉ Kind.specialNames := by
    intro kind
    rcases kind with _ | _ | (_ | _) | (_ | _ | _) <;>
      simp [Kind.fieldNames, Kind.computedNames, Kind.specialNames]
  exact apart cell.kind field isName

/-- A name that the node has no attribute of is refused as such, and so are the links.  Every other
attribute can be overwritten, unless it is computed or special. -/
theorem refusal?_eq (kindName : String) (cell : Cell) (entry : String × FieldValue) :
    refusal? kindName cell entry =
      if cell.kind.hasAttribute entry.1 = false ∨ entry.1 = "parent" ∨ entry.1 = "nodes" then
        some (.cannotOverride entry.1 kindName)
      else if entry.1 ∈ cell.kind.computedNames ∨ entry.1 = "__weakref__" then
        some (.readOnly entry.1 cell.kind.className)
      else if entry.1 ∈ Kind.specialNames then some (.wrongSort entry.1 entry.2.sortName)
      else none := by
  by_cases refused : cell.kind.hasAttribute entry.1 = false ∨ entry.1 = "parent" ∨
      entry.1 = "nodes"
  · rw [if_pos refused, refusal?_eq_some_iff, overwrite, if_pos (by simpa using refused)]
  · rw [if_neg refused, refusal?, overwrite, if_neg (by simpa using refused)]
    cases isSet : setField? cell entry.1 entry.2 with
    | some changed =>
        have isField : (cell.field? entry.1).isSome := by
          rw [← isSome_setField? cell entry.1 entry.2, isSet]
          rfl
        obtain ⟨notComputed, notSpecial⟩ := assignable_of_isSome_field? isField
        rw [setAttribute, isSet, if_neg notComputed, if_neg notSpecial]
    | none =>
        rw [setAttribute, isSet]
        simp only [Bool.or_eq_true, List.contains_iff_mem, beq_iff_eq]
        split_ifs <;> rfl

end Forest

end ContainerPreview
