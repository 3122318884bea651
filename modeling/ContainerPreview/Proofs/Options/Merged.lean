import ContainerPreview.Options
import ContainerPreview.Proofs.Value.Map
import Mathlib.Data.List.Nodup
import Mathlib.Data.List.Perm.Subperm

/-!
# Settings put over settings

A name that is put into an ordered map keeps its place if it is there, and comes last if it is
not.  So when entries that all have one value are put over a map, the last entry of the outcome
has that value, unless the entries name only what is there already and not the last of it.

An option has two names at most.  Its entries in a map of settings are put over one another as
the settings are.
-/

namespace ContainerPreview

namespace OrderedMap

variable {β : Type} {map entries : OrderedMap β} {name last : String} {value old : β}

/-! ## Putting one entry -/

theorem put_append (left right : OrderedMap β) (name : String) (value : β) :
    put name value (left ++ right) =
      if name ∈ left.map Prod.fst then put name value left ++ right
      else left ++ put name value right := by
  induction left with
  | nil => simp
  | cons entry left inductionHypothesis =>
      by_cases same : entry.1 = name
      · simp [put, same]
      · have isLater : name ∈ (entry :: left).map Prod.fst ↔ name ∈ left.map Prod.fst := by
          simp [Ne.symm same]
        have putCons : put name value (entry :: left) = entry :: put name value left := by
          simp [put, same]
        rw [List.cons_append, put, if_neg (by simpa using same), inductionHypothesis, putCons]
        by_cases member : name ∈ left.map Prod.fst
        · rw [if_pos member, if_pos (isLater.mpr member), List.cons_append]
        · rw [if_neg member, if_neg (isLater.not.mpr member), List.cons_append]

/-- A new name comes last. -/
theorem put_of_not_mem (isNew : name ∉ map.map Prod.fst) (value : β) :
    put name value map = map ++ [(name, value)] := by
  have appended := put_append map [] name value
  rwa [List.append_nil, if_neg isNew, put] at appended

theorem keys_put_of_mem (isThere : name ∈ map.map Prod.fst) (value : β) :
    (put name value map).map Prod.fst = map.map Prod.fst := by
  induction map with
  | nil => cases isThere
  | cons entry map inductionHypothesis =>
      by_cases same : entry.1 = name
      · simp [put, same]
      · have later : name ∈ map.map Prod.fst := by simpa [Ne.symm same] using isThere
        rw [put, if_neg (by simpa using same), List.map_cons, inductionHypothesis later,
          List.map_cons]

theorem nodup_put (nodup : (map.map Prod.fst).Nodup) (name : String) (value : β) :
    ((put name value map).map Prod.fst).Nodup := by
  by_cases isThere : name ∈ map.map Prod.fst
  · rwa [keys_put_of_mem isThere]
  · rw [put_of_not_mem isThere, List.map_append, List.nodup_append']
    exact ⟨nodup, List.nodup_singleton name, by simpa using isThere⟩

/-! ## Putting entries one after another -/

theorem putAll_cons (map : OrderedMap β) (entry : String × β) (entries : OrderedMap β) :
    putAll map (entry :: entries) = putAll (put entry.1 entry.2 map) entries :=
  rfl

/-- A map has every name once. -/
theorem nodup_ofEntries (entries : OrderedMap β) : ((ofEntries entries).map Prod.fst).Nodup := by
  have ofPutAll : ∀ map : OrderedMap β, (map.map Prod.fst).Nodup →
      ((putAll map entries).map Prod.fst).Nodup := by
    induction entries with
    | nil => exact fun map nodup => nodup
    | cons entry entries inductionHypothesis =>
        intro map nodup
        exact inductionHypothesis _ (nodup_put nodup entry.1 entry.2)
  exact ofPutAll [] List.nodup_nil

/-- The last entry of the map has the value. -/
def EndsWith (map : OrderedMap β) (value : β) : Prop :=
  ∃ name, map.getLast? = some (name, value)

theorem endsWith_concat (map : OrderedMap β) (name : String) (value : β) :
    EndsWith (map ++ [(name, value)]) value :=
  ⟨name, List.getLast?_concat⟩

theorem EndsWith.put (ends : EndsWith map value) (name : String) :
    EndsWith (put name value map) value := by
  obtain ⟨last, isLast⟩ := ends
  obtain ⟨front, rfl⟩ := List.getLast?_eq_some_iff.mp isLast
  rw [put_append]
  split
  · exact endsWith_concat _ last value
  · by_cases same : last = name
    · simpa [OrderedMap.put, same] using endsWith_concat front name value
    · simpa [OrderedMap.put, same] using endsWith_concat (front ++ [(last, value)]) name value

/-- The last value stays if all that is put over it have it, too. -/
theorem EndsWith.putAll (ends : EndsWith map value) (areSame : ∀ entry ∈ entries, entry.2 = value) :
    EndsWith (putAll map entries) value := by
  induction entries generalizing map with
  | nil => exact ends
  | cons entry entries inductionHypothesis =>
      obtain ⟨rfl, areSame⟩ := List.forall_mem_cons.mp areSame
      exact inductionHypothesis (ends.put entry.1) areSame

/-- A value that is put under a new name comes last. -/
theorem endsWith_putAll_of_new (areSame : ∀ entry ∈ entries, entry.2 = value)
    (isNew : ∃ entry ∈ entries, entry.1 ∉ map.map Prod.fst) :
    EndsWith (putAll map entries) value := by
  induction entries generalizing map with
  | nil => simp at isNew
  | cons entry entries inductionHypothesis =>
      obtain ⟨rfl, areSame⟩ := List.forall_mem_cons.mp areSame
      rw [putAll_cons]
      by_cases isThere : entry.1 ∈ map.map Prod.fst
      · refine inductionHypothesis areSame ?_
        obtain ⟨other, member, isNew⟩ := isNew
        rcases List.mem_cons.mp member with rfl | later
        · exact absurd isThere isNew
        · exact ⟨other, later, by rwa [keys_put_of_mem isThere]⟩
      · rw [put_of_not_mem isThere]
        exact (endsWith_concat map entry.1 entry.2).putAll areSame

/-- A value that is put under the last name is the last. -/
theorem endsWith_putAll_of_last (nodup : (map.map Prod.fst).Nodup)
    (isLast : map.getLast? = some (last, old)) (areSame : ∀ entry ∈ entries, entry.2 = value)
    (isPut : last ∈ entries.map Prod.fst) : EndsWith (putAll map entries) value := by
  induction entries generalizing map old with
  | nil => cases isPut
  | cons entry entries inductionHypothesis =>
      obtain ⟨rfl, areSame⟩ := List.forall_mem_cons.mp areSame
      obtain ⟨front, rfl⟩ := List.getLast?_eq_some_iff.mp isLast
      have lastIsNew : last ∉ front.map Prod.fst := by
        rw [List.map_append, List.nodup_append'] at nodup
        simpa using nodup.2.2
      have nodupPut := nodup_put nodup entry.1 entry.2
      rw [putAll_cons]
      rw [put_append] at nodupPut ⊢
      by_cases same : last = entry.1
      · rw [if_neg (same ▸ lastIsNew)]
        have putLast : put entry.1 entry.2 [(last, old)] = [(entry.1, entry.2)] := by
          simp [put, same]
        rw [putLast]
        exact (endsWith_concat front entry.1 entry.2).putAll areSame
      · have later : last ∈ entries.map Prod.fst := by simpa [same] using isPut
        split
        · rename_i isThere
          rw [if_pos isThere] at nodupPut
          exact inductionHypothesis nodupPut List.getLast?_concat areSame later
        · have putLast : put entry.1 entry.2 [(last, old)] = [(last, old)] ++ [(entry.1, entry.2)] :=
            put_of_not_mem (by simpa using Ne.symm same) entry.2
          rw [putLast, ← List.append_assoc]
          exact (endsWith_concat (front ++ [(last, old)]) entry.1 entry.2).putAll areSame

/-- The last entry stays if only other names are put, and these are there already. -/
theorem getLast?_putAll (isLast : map.getLast? = some (last, old))
    (areThere : ∀ entry ∈ entries, entry.1 ∈ map.map Prod.fst)
    (notPut : last ∉ entries.map Prod.fst) :
    (putAll map entries).getLast? = some (last, old) := by
  induction entries generalizing map with
  | nil => exact isLast
  | cons entry entries inductionHypothesis =>
      obtain ⟨isThere, areThere⟩ := List.forall_mem_cons.mp areThere
      rw [List.map_cons, List.mem_cons, not_or] at notPut
      obtain ⟨different, notPut⟩ := notPut
      have sameKeys := keys_put_of_mem isThere entry.2
      rw [putAll_cons]
      refine inductionHypothesis ?_ (fun other member => sameKeys ▸ areThere other member) notPut
      obtain ⟨front, rfl⟩ := List.getLast?_eq_some_iff.mp isLast
      have inFront : entry.1 ∈ front.map Prod.fst := by
        simpa [Ne.symm different] using isThere
      rw [put_append, if_pos inFront]
      exact List.getLast?_concat

end OrderedMap

namespace OptionName

open OrderedMap

/-! ## Entries of one option -/

/-- The entries of a map that set the option, under any of its names, in order. -/
def entriesIn (name : OptionName) (settings : OrderedMap Setting) : OrderedMap Setting :=
  settings.filter fun entry => ofName? entry.1 == some name

/-- The names of the option. -/
def names : OptionName → List String
  | .units => ["units"]
  | .typographyUnits => ["typography_units", "typographyUnits"]
  | .containerElement => ["container_el", "containerEl"]
  | .modifierAttribute => ["modifier_attr", "modifierAttr"]
  | .transform => ["transform"]
  | .debug => ["debug"]
  | .debugFilter => ["debug_filter", "debugFilter"]

theorem mem_names_of_ofName? {key : String} {name : OptionName} (isName : ofName? key = some name) :
    key ∈ name.names := by
  rcases Option.or_eq_some_iff.mp isName with isAlias | ⟨-, isMain⟩
  · unfold ofAlias? at isAlias
    split at isAlias <;> cases isAlias <;> simp [names]
  · unfold ofMainName? at isMain
    split at isMain <;> cases isMain <;> simp [names]

theorem length_names_le (name : OptionName) : name.names.length ≤ 2 := by
  cases name <;> decide

variable {name : OptionName} {settings entries : OrderedMap Setting}

theorem mem_entriesIn {entry : String × Setting} :
    entry ∈ name.entriesIn settings ↔ entry ∈ settings ∧ ofName? entry.1 = some name := by
  simp [entriesIn]

theorem keys_entriesIn (name : OptionName) (settings : OrderedMap Setting) :
    (name.entriesIn settings).map Prod.fst =
      (settings.map Prod.fst).filter fun key => ofName? key == some name := by
  rw [entriesIn, List.filter_map]
  rfl

theorem mem_keys_entriesIn {key : String} :
    key ∈ (name.entriesIn settings).map Prod.fst ↔
      key ∈ settings.map Prod.fst ∧ ofName? key = some name := by
  rw [keys_entriesIn, List.mem_filter, beq_iff_eq]

/-- Putting an entry concerns only the option that it sets. -/
theorem entriesIn_put (key : String) (setting : Setting) :
    name.entriesIn (put key setting settings) =
      if ofName? key = some name then put key setting (name.entriesIn settings)
      else name.entriesIn settings := by
  induction settings with
  | nil =>
      by_cases isName : ofName? key = some name <;> simp [put, entriesIn, isName]
  | cons entry settings inductionHypothesis =>
      simp only [entriesIn] at inductionHypothesis ⊢
      by_cases same : entry.1 = key
      · subst same
        by_cases isName : ofName? entry.1 = some name <;> simp [put, isName]
      · rw [put, if_neg (by simpa using same), List.filter_cons, List.filter_cons,
          inductionHypothesis]
        by_cases isName : ofName? key = some name <;>
          by_cases isOwn : ofName? entry.1 = some name <;> simp [put, isName, isOwn, same]

theorem entriesIn_putAll (name : OptionName) (settings entries : OrderedMap Setting) :
    name.entriesIn (putAll settings entries) =
      putAll (name.entriesIn settings) (name.entriesIn entries) := by
  induction entries generalizing settings with
  | nil => rfl
  | cons entry entries inductionHypothesis =>
      have ofEntries : name.entriesIn (entry :: entries) =
          if ofName? entry.1 = some name then entry :: name.entriesIn entries
          else name.entriesIn entries := by
        simp [entriesIn, List.filter_cons]
      rw [putAll_cons, inductionHypothesis, entriesIn_put, ofEntries]
      split <;> rfl

theorem nodup_entriesIn_ofEntries (name : OptionName) (settings : OrderedMap Setting) :
    ((name.entriesIn (ofEntries settings)).map Prod.fst).Nodup := by
  rw [keys_entriesIn]
  exact (nodup_ofEntries settings).filter _

theorem subperm_names (name : OptionName) (settings : OrderedMap Setting) :
    ((name.entriesIn (ofEntries settings)).map Prod.fst).Subperm name.names :=
  List.Nodup.subperm (name.nodup_entriesIn_ofEntries settings) fun _ member =>
    mem_names_of_ofName? (mem_keys_entriesIn.mp member).2

/-- A map names an option twice at most. -/
theorem length_entriesIn_ofEntries_le (name : OptionName) (settings : OrderedMap Setting) :
    (name.entriesIn (ofEntries settings)).length ≤ 2 := by
  have length := (name.subperm_names settings).length_le
  rw [List.length_map] at length
  exact Nat.le_trans length name.length_names_le

/-- A map that names an option as often as it has names has all of them. -/
theorem mem_keys_of_length_names_le (name : OptionName) {settings : OrderedMap Setting}
    (enough : name.names.length ≤ ((name.entriesIn (ofEntries settings)).map Prod.fst).length)
    {key : String} (isName : ofName? key = some name) :
    key ∈ (name.entriesIn (ofEntries settings)).map Prod.fst :=
  ((name.subperm_names settings).perm_of_length_le enough).mem_iff.mpr (mem_names_of_ofName? isName)

end OptionName

end ContainerPreview
