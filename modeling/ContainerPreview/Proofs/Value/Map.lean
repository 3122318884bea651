import ContainerPreview.Proofs.Value.Swap
import ContainerPreview.Value.Converter

/-!
# Unit maps of words

The units of a map that is given in words are words in lower case, and what stands for a unit is
one of the targets of the map.  A unit that is recognized in letters beyond ASCII may have no
target and stands for itself.
-/

namespace ContainerPreview

open Text Value

/-- A non-empty word of letters of ASCII. -/
def isWord (text : String) : Bool :=
  !text.toList.isEmpty && text.toList.all Char.isAlpha

namespace OrderedMap

variable {β : Type}

theorem mem_of_mem_put {name : String} {value : β} {map : OrderedMap β} {entry : String × β}
    (member : entry ∈ put name value map) : entry = (name, value) ∨ entry ∈ map := by
  induction map with
  | nil => exact .inl (List.mem_singleton.mp member)
  | cons first map inductionHypothesis =>
      rw [put] at member
      split at member
      · exact (List.mem_cons.mp member).imp_right (List.mem_cons_of_mem _)
      · rcases List.mem_cons.mp member with rfl | later
        · exact .inr List.mem_cons_self
        · exact (inductionHypothesis later).imp_right (List.mem_cons_of_mem _)

theorem mem_of_mem_putAll {map entries : OrderedMap β} {entry : String × β}
    (member : entry ∈ putAll map entries) : entry ∈ map ∨ entry ∈ entries := by
  induction entries generalizing map with
  | nil => exact .inl member
  | cons first entries inductionHypothesis =>
      have parts : entry ∈ put first.1 first.2 map ∨ entry ∈ entries := inductionHypothesis member
      rcases parts with inPut | later
      · exact (mem_of_mem_put inPut).symm.imp_right fun same => List.mem_cons.mpr (.inl same)
      · exact .inr (List.mem_cons_of_mem _ later)

/-- The entries of a map are among those that it is made of. -/
theorem mem_of_mem_ofEntries {entries : OrderedMap β} {entry : String × β}
    (member : entry ∈ ofEntries entries) : entry ∈ entries :=
  (mem_of_mem_putAll member).resolve_left List.not_mem_nil

theorem mem_keys_put {name key : String} {value : β} {map : OrderedMap β} :
    name ∈ (put key value map).map Prod.fst ↔ name = key ∨ name ∈ map.map Prod.fst := by
  induction map with
  | nil => simp [put]
  | cons first map inductionHypothesis =>
      rw [put]
      split
      · rename_i same
        rw [beq_iff_eq] at same
        simp [same]
      · rw [List.map_cons, List.mem_cons, inductionHypothesis, List.map_cons, List.mem_cons]
        exact or_left_comm

/-- A map has the names of the entries that it is made of. -/
theorem mem_keys_ofEntries {name : String} {entries : OrderedMap β} :
    name ∈ (ofEntries entries).map Prod.fst ↔ name ∈ entries.map Prod.fst := by
  have ofPutAll : ∀ map : OrderedMap β, name ∈ (putAll map entries).map Prod.fst ↔
      name ∈ map.map Prod.fst ∨ name ∈ entries.map Prod.fst := by
    induction entries with
    | nil => simp [putAll]
    | cons first entries inductionHypothesis =>
        intro map
        rw [putAll, List.foldl_cons, ← putAll, inductionHypothesis, mem_keys_put, List.map_cons,
          List.mem_cons, or_comm (a := name = first.1), or_assoc]
  rw [ofEntries, ofPutAll]
  simp

theorem mem_of_value? {map : OrderedMap β} {name : String} {value : β}
    (found : value? map name = some value) : (name, value) ∈ map := by
  induction map with
  | nil => cases found
  | cons entry map inductionHypothesis =>
      obtain ⟨key, first⟩ := entry
      rw [value?, List.lookup_cons] at found
      split at found
      · rename_i same
        rw [beq_iff_eq] at same
        rw [same, ← Option.some.inj found]
        exact List.mem_cons_self
      · exact List.mem_cons_of_mem _ (inductionHypothesis found)

end OrderedMap

theorem isLower_lowerChar {c : Char} (isAlpha : c.isAlpha) :
    lowerChar c = [c.toLower] ∧ c.toLower.isLower :=
  forall_ascii (fun c => c.isAlpha → lowerChar c = [c.toLower] ∧ c.toLower.isLower) (by decide)
    (toNat_of_isAlpha isAlpha) isAlpha

/-- A word in lower case is a unit name. -/
theorem isUnitName_lower {text : String} (word : isWord text) : IsUnitName (lower text.toList) := by
  obtain ⟨nonempty, isAlpha⟩ := Bool.and_eq_true_iff.mp word
  rw [List.all_eq_true] at isAlpha
  constructor
  · obtain ⟨c, rest, isCons⟩ : ∃ c rest, text.toList = c :: rest :=
      List.exists_cons_of_ne_nil (by simpa using nonempty)
    have isLetter := (isLower_lowerChar (isAlpha c (isCons ▸ List.mem_cons_self))).1
    rw [isCons, lower, List.flatMap_cons, isLetter]
    exact List.cons_ne_nil c.toLower _
  · intro s member
    obtain ⟨c, inText, inLower⟩ := List.mem_flatMap.mp member
    obtain ⟨isLetter, isLower⟩ := isLower_lowerChar (isAlpha c inText)
    rw [isLetter, List.mem_singleton] at inLower
    rwa [inLower]

namespace Value.Scheme

variable {scheme : Scheme} {units : UnitMap}

/-- The units of a scheme are those of its map in lower case. -/
theorem mem_names_of_lowerUnits (isMap : scheme.units = units.lowerUnits) {name : List Char} :
    name ∈ scheme.names ↔ ∃ entry ∈ units, lower entry.1.toList = name := by
  have ofKeys : name ∈ scheme.names ↔
      String.ofList name ∈ (units.lowerUnits).map Prod.fst := by
    rw [names, isMap, UnitMap.mem_longestFirst, List.mem_map]
    constructor
    · rintro ⟨entry, member, rfl⟩
      exact ⟨entry, member, String.ofList_toList.symm⟩
    · rintro ⟨entry, member, same⟩
      exact ⟨entry, member, by rw [same, String.toList_ofList]⟩
  rw [ofKeys, UnitMap.lowerUnits, OrderedMap.mem_keys_ofEntries, List.map_map, List.mem_map]
  exact exists_congr fun entry => and_congr_right fun _ =>
    ⟨fun same => String.ofList_inj.mp same, fun same => congrArg String.ofList same⟩

theorem hasNames_of_lowerUnits (isMap : scheme.units = units.lowerUnits)
    (words : ∀ entry ∈ units, isWord entry.1) : scheme.HasNames := by
  intro unit isUnit
  obtain ⟨entry, member, rfl⟩ := (mem_names_of_lowerUnits isMap).mp isUnit
  exact isUnitName_lower (words entry member)

/-- A unit that is recognized in letters of ASCII is one of the units in some case of letters, and
has a target. -/
theorem exists_target (hasNames : scheme.HasNames) {unit : List Char}
    (isUnit : ∃ name ∈ scheme.names, dropStartFolded? name unit = some []) (ascii : IsAscii unit) :
    lower unit ∈ scheme.names ∧
      ∃ target, scheme.units.target? (String.ofList (lower unit)) = some target ∧
        scheme.targetOf unit = target.toList := by
  obtain ⟨name, isName, whole⟩ := isUnit
  have sameName := (lower_of_matches (hasNames name isName).2 whole ascii).1
  obtain ⟨entry, isEntry, rfl⟩ := UnitMap.mem_longestFirst.mp isName
  have isSome : (scheme.units.target? (String.ofList (lower unit))).isSome := by
    rw [sameName, String.ofList_toList]
    exact List.lookup_isSome_iff.mpr ⟨entry, isEntry, beq_self_eq_true _⟩
  obtain ⟨target, isTarget⟩ := Option.isSome_iff_exists.mp isSome
  exact ⟨sameName ▸ isName, target, isTarget, by rw [targetOf, isTarget]⟩

/-- For a unit stands what stands for it in lower case. -/
theorem targetOf_lower (hasNames : scheme.HasNames) {unit : List Char}
    (isUnit : ∃ name ∈ scheme.names, dropStartFolded? name unit = some []) (ascii : IsAscii unit) :
    lower unit ∈ scheme.names ∧ scheme.targetOf (lower unit) = scheme.targetOf unit := by
  obtain ⟨isName, target, isTarget, isWord⟩ := exists_target hasNames isUnit ascii
  refine ⟨isName, ?_⟩
  rw [targetOf, lower_of_isLower (hasNames _ isName).2, isTarget, isWord]

/-- What stands for a unit is a target of the map, or the unit itself. -/
theorem targetOf_cases (isMap : scheme.units = units.lowerUnits) (unit : List Char) :
    scheme.targetOf unit = unit ∨ ∃ entry ∈ units, scheme.targetOf unit = entry.2.toList := by
  rw [targetOf]
  split
  · rename_i target isTarget
    rw [isMap] at isTarget
    have member := OrderedMap.mem_of_value? isTarget
    obtain ⟨original, isOriginal, same⟩ := List.mem_map.mp (OrderedMap.mem_of_mem_ofEntries member)
    exact .inr ⟨original, isOriginal, congrArg String.toList (Prod.ext_iff.mp same).2.symm⟩
  · exact .inl rfl

theorem class_of_isWord {text : String} (word : isWord text) :
    text.toList ≠ [] ∧ ∀ c ∈ text.toList, isNameChar c ∧ isNumberChar c = false := by
  obtain ⟨nonempty, areLetters⟩ := Bool.and_eq_true_iff.mp word
  rw [List.all_eq_true] at areLetters
  refine ⟨?_, fun c member => class_of_isAlpha (areLetters c member)⟩
  intro isNil
  rw [isNil] at nonempty
  cases nonempty

/-- A map of words to words makes words of words. -/
theorem hasWords_of_lowerUnits (isMap : scheme.units = units.lowerUnits)
    (words : ∀ entry ∈ units, isWord entry.1 ∧ isWord entry.2) : scheme.HasWords where
  hasNames := hasNames_of_lowerUnits isMap fun entry member => (words entry member).1
  isWord isUnit := by
    rcases targetOf_cases isMap _ with itself | ⟨entry, member, isTarget⟩
    · rw [itself]
      exact class_of_isUnit
        (hasNames_of_lowerUnits isMap fun entry member => (words entry member).1) isUnit
    · rw [isTarget]
      exact class_of_isWord (words entry member).2

end Value.Scheme

end ContainerPreview
