import ContainerPreview.Proofs.Value.Kept
import ContainerPreview.Proofs.Value.Map

/-!
# Conversion leaves no quantities

If units stand for words that are none of the units, no quantity is left in what a text of ASCII
is converted to: a number is followed by such a word where it was followed by a unit, and nothing
is put together that could be read as a quantity.

Inside a name or a number no quantity begins, so the conversion goes on there like the text.
What comes before a separator or an opening parenthesis is then the same in both.
-/

namespace ContainerPreview

open Text

namespace Value

namespace Scheme

/-- Units stand for words in lower case that are no units, and sizes relative to the root are
none either. -/
structure Settles (scheme : Scheme) : Prop extends scheme.HasWords where
  isLower {name : List Char} (isUnit : name ∈ scheme.names) :
    ∀ c ∈ scheme.targetOf name, c.isLower
  notUnit {name : List Char} (isUnit : name ∈ scheme.names) :
    scheme.targetOf name ∉ scheme.names
  noRem : remUnit ∉ scheme.names

variable {scheme : Scheme}

/-- A unit that is written in ASCII stands for a word in lower case that is no unit. -/
theorem Settles.targetOf (settles : scheme.Settles) {unit : List Char}
    (isUnit : ∃ name ∈ scheme.names, dropStartFolded? name unit = some []) (ascii : IsAscii unit) :
    (∀ c ∈ scheme.targetOf unit, c.isLower) ∧
      ∀ name ∈ scheme.names, dropStartFolded? name (scheme.targetOf unit) ≠ some [] := by
  obtain ⟨isName, sameTarget⟩ := targetOf_lower settles.hasNames isUnit ascii
  have isLower := settles.isLower isName
  have notUnit := settles.notUnit isName
  rw [sameTarget] at isLower notUnit
  refine ⟨isLower, fun name isUnit matched => notUnit ?_⟩
  rw [← eq_of_matches (settles.hasNames name isUnit).2 isLower matched (matches_self _)]
  exact isUnit

end Scheme

end Value

/-! ## Maps that settle -/

/-- A map of words for words in lower case.  None of these is a unit in any case of letters, and
neither is `rem`. -/
structure UnitMap.Settles (units : UnitMap) : Prop where
  isWord : ∀ entry ∈ units, isWord entry.1 ∧ isWord entry.2
  isLower : ∀ entry ∈ units, ∀ c ∈ entry.2.toList, c.isLower
  notUnit : ∀ entry ∈ units, ∀ other ∈ units, lower other.1.toList ≠ entry.2.toList
  noRem : ∀ entry ∈ units, lower entry.1.toList ≠ Value.remUnit

namespace Value

namespace Scheme

variable {scheme : Scheme}

/-- What stands for a unit of the map is one of its targets. -/
theorem exists_entry_of_mem_names {units : UnitMap} (isMap : scheme.units = units.lowerUnits)
    (hasNames : scheme.HasNames) {name : List Char} (isUnit : name ∈ scheme.names) :
    ∃ entry ∈ units, scheme.targetOf name = entry.2.toList := by
  have letters := (hasNames name isUnit).2
  obtain ⟨-, target, found, isTarget⟩ := exists_target hasNames
    ⟨name, isUnit, matches_self name⟩
    fun c member => toNat_of_isAlpha (isAlpha_of_isLower (letters c member))
  rw [isMap] at found
  obtain ⟨entry, member, same⟩ :=
    List.mem_map.mp (OrderedMap.mem_of_mem_ofEntries (OrderedMap.mem_of_value? found))
  exact ⟨entry, member, isTarget.trans (congrArg String.toList (Prod.ext_iff.mp same).2.symm)⟩

theorem settles_of_lowerUnits {units : UnitMap} (isMap : scheme.units = units.lowerUnits)
    (settles : units.Settles) : scheme.Settles where
  toHasWords := hasWords_of_lowerUnits isMap settles.isWord
  isLower isUnit := by
    obtain ⟨entry, member, isTarget⟩ := exists_entry_of_mem_names isMap
      (hasWords_of_lowerUnits isMap settles.isWord).hasNames isUnit
    rw [isTarget]
    exact settles.isLower entry member
  notUnit isUnit isTarget := by
    obtain ⟨entry, member, same⟩ := exists_entry_of_mem_names isMap
      (hasWords_of_lowerUnits isMap settles.isWord).hasNames isUnit
    rw [same, mem_names_of_lowerUnits isMap] at isTarget
    obtain ⟨other, isOther, sameName⟩ := isTarget
    exact settles.notUnit entry member other isOther sameName
  noRem isRem := by
    obtain ⟨entry, member, same⟩ := (mem_names_of_lowerUnits isMap).mp isRem
    exact settles.noRem entry member same

/-! ## Inside names and numbers -/

theorem head?_swapAfter (previous : Option Char) (text : List Char) :
    (scheme.swapAfter previous text).head? = text.head? := by
  cases text with
  | nil =>
      rw [swapAfter, piecesAfter]
      rfl
  | cons c text =>
      cases found : if quantityMayFollow previous then quantityAt? scheme.names (c :: text)
          else none with
      | none =>
          rw [swapAfter, piecesAfter_of_none found]
          rfl
      | some reading =>
          split at found
          · rename_i mayFollow
            obtain ⟨positive, same⟩ := append_of_mem_readings (List.mem_of_find?_eq_some found)
            rw [swapAfter, piecesAfter_of_quantity mayFollow found, List.flatMap_cons, convertPiece,
              ← same, List.append_assoc, List.append_assoc,
              List.head?_append_of_ne_nil _ (List.length_pos_iff.mp positive),
              List.head?_append_of_ne_nil _ (List.length_pos_iff.mp positive)]
          · cases found

theorem swapAfter_cons_of_blocked {previous : Option Char}
    (blocked : quantityMayFollow previous = false) (c : Char) (text : List Char) :
    scheme.swapAfter previous (c :: text) = c :: scheme.swapAfter (some c) text := by
  rw [swapAfter, piecesAfter_of_none (by rw [blocked]; rfl)]
  rfl

/-- Where no quantity may follow, the text and its conversion go on alike until a character
after which one may. -/
theorem exists_stem {previous : Option Char} (blocked : quantityMayFollow previous = false)
    (text : List Char) : ∃ stem right right', text = stem ++ right ∧
      scheme.swapAfter previous text = stem ++ right' ∧
        (∀ c ∈ stem, quantityMayFollow (some c) = false) ∧
          (∀ c ∈ right.head?, quantityMayFollow (some c)) ∧ right'.head? = right.head? := by
  induction text generalizing previous with
  | nil => exact ⟨[], [], _, rfl, rfl, by simp, by simp, head?_swapAfter previous []⟩
  | cons c text inductionHypothesis =>
      rw [swapAfter_cons_of_blocked blocked]
      cases mayFollow : quantityMayFollow (some c) with
      | false =>
          obtain ⟨stem, right, right', isText, isOutput, areBlocking, free, sameHead⟩ :=
            inductionHypothesis mayFollow
          exact ⟨c :: stem, right, right', by rw [isText]; rfl, by rw [isOutput]; rfl,
            List.forall_mem_cons.mpr ⟨mayFollow, areBlocking⟩, free, sameHead⟩
      | true => exact ⟨[], _, _, rfl, rfl, by simp, by simpa using mayFollow, rfl⟩

theorem class_of_mayFollow {c : Char} (mayFollow : quantityMayFollow (some c)) :
    isNameChar c = false ∧ c ≠ '.' := by
  simpa [quantityMayFollow] using mayFollow

theorem isDigit_of_mayFollow {c : Char} (mayFollow : quantityMayFollow (some c)) :
    isDigit c = false := by
  by_contra digit
  have notName := (class_of_mayFollow mayFollow).1
  rw [isNameChar_of_isDigit (Bool.not_eq_false _ ▸ digit)] at notName
  cases notName

/-- No quantity begins with a character after which none may follow, if none did before: the
conversion changes nothing up to its end. -/
theorem quantityAt?_of_blocked (hasNames : scheme.HasNames) {c : Char} {rest : List Char}
    (blocked : quantityMayFollow (some c) = false)
    (notFound : quantityAt? scheme.names (c :: rest) = none) :
    quantityAt? scheme.names (c :: scheme.swapAfter (some c) rest) = none := by
  obtain ⟨stem, right, right', isText, isOutput, -, free, sameHead⟩ := exists_stem blocked rest
  have cut : ∀ right : List Char, (∀ d ∈ right.head?, quantityMayFollow (some d)) →
      quantityAt? scheme.names (c :: stem ++ right) =
        (quantityAt? scheme.names (c :: stem)).map (·.before right) := by
    intro right free
    apply quantityAt?_cut hasNames
    · intro d isHead
      exact ⟨isDigit_of_mayFollow (free d isHead), (class_of_mayFollow (free d isHead)).2⟩
    · show Apart (lastAfter none (c :: stem)) right
      exact fun x _ d isHead => .inr (class_of_mayFollow (free d isHead)).1
  rw [isText, ← List.cons_append, cut right free, Option.map_eq_none_iff] at notFound
  rw [isOutput, ← List.cons_append, cut right' (by rwa [sameHead]), notFound]
  rfl

/-- No quantity begins with a character after which one may follow, if none follows: a number
that begins with it begins with a plus sign. -/
theorem quantityAt?_of_free (hasNames : scheme.HasNames) {c : Char} {text : List Char}
    (free : quantityMayFollow (some c))
    (clean : piecesAfter scheme.names (some c) text = text.map Piece.plain) :
    quantityAt? scheme.names (c :: text) = none := by
  by_cases isPlus : c = '+'
  · subst isPlus
    cases withSign : quantityAt? scheme.names ('+' :: text) with
    | none => rfl
    | some reading =>
        obtain ⟨number, -, -, withoutSign⟩ := quantityAt?_of_plus hasNames withSign
        cases text with
        | nil => cases withoutSign
        | cons d text =>
            rw [piecesAfter_of_quantity free withoutSign, List.map_cons] at clean
            cases clean
  · obtain ⟨notName, notPoint⟩ := class_of_mayFollow free
    have notMinus : c ≠ '-' := by
      rintro rfl
      cases notName
    apply quantityAt?_of_not_isNumberChar
    simp [isNumberChar, isSign, isPlus, notMinus, isDigit_of_mayFollow free, notPoint]

theorem not_mayFollow_word (left : List Char) {word : List Char} (previous : Option Char)
    (nonempty : word ≠ []) (isWord : ∀ c ∈ word, isNameChar c ∧ isNumberChar c = false) :
    quantityMayFollow (lastAfter previous (left ++ word)) = false := by
  obtain ⟨d, isLast, isName⟩ := isNameChar_last left nonempty isWord
  rw [lastAfter_eq_getLast? _ (List.append_ne_nil_of_right_ne_nil left nonempty),
    Option.mem_def.mp isLast]
  simp [quantityMayFollow, isName]

/-! ## Swapped units -/

/-- Swapping units leaves no quantity behind. -/
theorem piecesAfter_swapAfter (settles : scheme.Settles) {previous other : Option Char}
    (mayFollow : quantityMayFollow other = quantityMayFollow previous) {text : List Char}
    (ascii : IsAscii text) :
    piecesAfter scheme.names other (scheme.swapAfter previous text) =
      (scheme.swapAfter previous text).map Piece.plain := by
  have hasNames := settles.hasNames
  rw [swapAfter]
  fun_induction piecesAfter scheme.names previous text generalizing other with
  | case1 =>
      rw [List.flatMap_nil, piecesAfter]
      rfl
  | case2 previous c rest reading found inductionHypothesis =>
      obtain ⟨-, chosen⟩ := Option.ite_none_right_eq_some.mp found
      have member := List.mem_of_find?_eq_some chosen
      have ends : nameEnds reading.rest :=
        List.find?_some (p := fun reading : Reading => nameEnds reading.rest) chosen
      have isRead := isQuantity_of_mem_readings hasNames member
      rw [← (append_of_mem_readings member).2] at ascii
      obtain ⟨asciiQuantity, asciiRest⟩ := List.forall_mem_append.mp ascii
      have foreign := (settles.targetOf isRead.isUnit (List.forall_mem_append.mp asciiQuantity).2).2
      obtain ⟨nonempty, isWord⟩ := settles.isWord isRead.isUnit
      obtain ⟨unitNonempty, unitWord⟩ := class_of_isUnit hasNames isRead.isUnit
      have blocked : quantityMayFollow (reading.number ++ reading.unit).getLast? = false := by
        rw [← lastAfter_eq_getLast? none (List.append_ne_nil_of_right_ne_nil _ unitNonempty)]
        exact not_mayFollow_word reading.number none unitNonempty unitWord
      have ofRest := inductionHypothesis
        ((not_mayFollow_word reading.number other nonempty isWord).trans blocked.symm)
        asciiRest
      rw [← swapAfter] at ofRest
      rw [List.flatMap_cons, convertPiece, ← swapAfter]
      have outputEnds : nameEnds
          (scheme.swapAfter (reading.number ++ reading.unit).getLast? reading.rest) := by
        rw [nameEnds, head?_swapAfter]
        exact ends
      rw [piecesAfter_foreign hasNames (isNumberChar_of_isNumber isRead.isNumber) isWord nonempty
        outputEnds foreign, ofRest, ← List.map_append]
  | case3 previous c rest found inductionHypothesis =>
      have ofRest : piecesAfter scheme.names (some c) (scheme.swapAfter (some c) rest) =
          (scheme.swapAfter (some c) rest).map Piece.plain :=
        inductionHypothesis rfl (List.forall_mem_cons.mp ascii).2
      rw [List.flatMap_cons, convertPiece, List.singleton_append, ← swapAfter]
      have none : (if quantityMayFollow other then quantityAt? scheme.names
          (c :: scheme.swapAfter (some c) rest) else none) = none := by
        split
        · rename_i mayFollowOther
          rw [← mayFollow, dif_pos mayFollowOther] at found
          cases free : quantityMayFollow (some c) with
          | false => exact quantityAt?_of_blocked hasNames free found
          | true => exact quantityAt?_of_free hasNames free ofRest
        · rfl
      rw [piecesAfter_of_none none, ofRest, List.map_cons]

theorem unitsOf_swapUnits (settles : scheme.Settles) {text : List Char} (ascii : IsAscii text) :
    unitsOf scheme.names (scheme.swapUnits text) = [] := by
  have ofPieces : pieces scheme.names (scheme.swapUnits text) =
      (scheme.swapUnits text).map Piece.plain :=
    piecesAfter_swapAfter settles rfl ascii
  rw [unitsOf, ofPieces, filterMap_unit?_plain]

/-! ## Characters of ASCII -/

theorem isAscii_targetOf (settles : scheme.Settles) {unit : List Char}
    (isUnit : ∃ name ∈ scheme.names, dropStartFolded? name unit = some []) (ascii : IsAscii unit) :
    IsAscii (scheme.targetOf unit) := fun c member =>
  toNat_of_isAlpha (isAlpha_of_isLower ((settles.targetOf isUnit ascii).1 c member))

theorem isAscii_swapUnits (settles : scheme.Settles) {text : List Char} (ascii : IsAscii text) :
    IsAscii (scheme.swapUnits text) := by
  intro c member
  obtain ⟨piece, isPiece, inOutput⟩ := List.mem_flatMap.mp member
  have inText : ∀ c ∈ piece.text, c.toNat < 128 := by
    intro c inPiece
    apply ascii
    rw [← flatMap_text_piecesAfter scheme.names none text]
    exact List.mem_flatMap.mpr ⟨piece, isPiece, inPiece⟩
  cases piece with
  | plain d => exact inText c inOutput
  | quantity number unit =>
      have isRead := isQuantity_of_mem_piecesAfter settles.hasNames isPiece
      obtain ⟨asciiNumber, asciiUnit⟩ := List.forall_mem_append.mp inText
      exact List.forall_mem_append.mpr
        ⟨asciiNumber, isAscii_targetOf settles isRead.isUnit asciiUnit⟩ c inOutput

theorem isAscii_parts {text : List Char} {call : Call} (isFirst : call.IsFirst text)
    (ascii : IsAscii text) :
    IsAscii call.before ∧ IsAscii call.name ∧ IsAscii call.body ∧ IsAscii call.after := by
  rw [isFirst.hasHead.text_eq] at ascii
  obtain ⟨ofBefore, fromName⟩ := List.forall_mem_append.mp ascii
  obtain ⟨ofName, fromBody⟩ := List.forall_mem_append.mp fromName
  obtain ⟨ofBody, fromAfter⟩ := List.forall_mem_append.mp (List.forall_mem_cons.mp fromBody).2
  exact ⟨ofBefore, ofName, ofBody, (List.forall_mem_cons.mp fromAfter).2⟩

theorem isAscii_part {text part : List Char} (isPart : part ∈ splitTopLevel ',' text)
    (ascii : IsAscii text) : IsAscii (trim part) := by
  intro c member
  apply ascii
  rw [← intercalate_splitFrom ',' Scan.start text]
  exact mem_intercalate isPart (mem_of_mem_trim member)

theorem isAscii_sum {sum : FluidSum} (ascii : IsAscii sum.text) :
    IsAscii sum.unit ∧ IsAscii sum.rem := by
  constructor
  · exact fun c member => ascii c (by simp [FluidSum.text, member])
  · exact fun c member => ascii c (by simp [FluidSum.text, FluidSum.addend, member])

theorem isAscii_joined {parts : List (List Char)} (ascii : ∀ part ∈ parts, IsAscii part) :
    IsAscii ([',', ' '].intercalate parts) := by
  induction parts with
  | nil => simp [IsAscii]
  | cons first parts inductionHypothesis =>
      obtain ⟨ofFirst, ofOthers⟩ := List.forall_mem_cons.mp ascii
      cases parts with
      | nil =>
          rw [List.intercalate_singleton]
          exact ofFirst
      | cons second parts =>
          have isAscii : IsAscii [',', ' '] := by decide
          rw [List.intercalate_cons_cons, List.append_assoc]
          exact List.forall_mem_append.mpr ⟨ofFirst, List.forall_mem_append.mpr
            ⟨isAscii, inductionHypothesis ofOthers⟩⟩

/-- A text of ASCII is converted to one. -/
theorem Arranges.isAscii (settles : scheme.Settles) {site : Site} {text out : List Char}
    (arranges : scheme.Arranges site text out) (ascii : IsAscii text) : IsAscii out := by
  induction arranges with
  | swap => exact isAscii_swapUnits settles ascii
  | @turn sum turns isRead =>
      have ofTarget := isAscii_targetOf settles isRead.quantity.isUnit (isAscii_sum ascii).1
      have ofRem : IsAscii (remUnit ++ [' ', '+', ' ']) := by decide
      have inText : ∀ c, c ∈ sum.left ∨ c ∈ sum.size ∨ c ∈ sum.number ∨ c ∈ sum.right →
          c.toNat < 128 := by
        intro c member
        apply ascii
        simp only [FluidSum.text, FluidSum.addend, List.mem_append, List.mem_cons]
        tauto
      intro c member
      simp only [FluidSum.turned, List.mem_append, List.mem_cons] at member
      have inRem := ofRem c
      simp only [List.mem_append, List.mem_cons] at inRem
      have inTarget := ofTarget c
      have inOthers := inText c
      tauto
  | call isText found ofBody ofAfter bodyHypothesis afterHypothesis =>
      obtain ⟨asciiBefore, asciiName, asciiBody, asciiAfter⟩ :=
        isAscii_parts (Call.isFirst found) ascii
      have fromAfter : IsAscii _ :=
        List.forall_mem_cons.mpr ⟨show ')'.toNat < 128 by decide, afterHypothesis asciiAfter⟩
      have fromBody : IsAscii _ := List.forall_mem_cons.mpr ⟨show '('.toNat < 128 by decide,
        List.forall_mem_append.mpr ⟨bodyHypothesis asciiBody, fromAfter⟩⟩
      exact List.forall_mem_append.mpr ⟨isAscii_swapUnits settles asciiBefore,
        List.forall_mem_append.mpr ⟨asciiName, fromBody⟩⟩
  | @arguments text parts split ofParts inductionHypothesis =>
      apply isAscii_joined
      refine List.forall_mem_map.mpr fun part member => inductionHypothesis part member ?_
      apply isAscii_part _ ascii
      rw [split]
      exact List.mem_map_of_mem member

/-! ## Converted texts -/

/-- A sum turned around has no quantity in it. -/
theorem unitsOf_turned (settles : scheme.Settles) {sum : FluidSum}
    (isRead : sum.IsRead scheme.names) (ascii : IsAscii sum.unit) :
    unitsOf scheme.names (sum.turned scheme) = [] := by
  have hasNames := settles.hasNames
  have isSize : IsQuantity [remUnit] sum.size remUnit :=
    ⟨isRead.size.isNumber, remUnit, List.mem_cons_self, by decide⟩
  obtain ⟨nonempty, isWord⟩ := settles.isWord isRead.quantity.isUnit
  have ofNumber := unitsOf_foreign hasNames (isNumberChar_of_isNumber isRead.quantity.isNumber)
    isWord nonempty (settles.targetOf isRead.quantity.isUnit ascii).2
  have ofSign : unitsOf scheme.names ['+'] = [] := by
    rw [unitsOf, pieces, piecesAfter_of_none (by rw [quantityMayFollow]; rfl), piecesAfter]
    rfl
  have fromSign := unitsOf_separator hasNames ['+'] (c := ' ') (by decide)
    (sum.number ++ scheme.targetOf sum.unit)
  rw [ofSign, List.nil_append, ofNumber, List.singleton_append] at fromSign
  rw [FluidSum.turned, unitsOf_between hasNames isRead.left isRead.right,
    unitsOf_separator hasNames _ (by decide), unitsOf_size hasNames settles.noRem isSize,
    List.nil_append, fromSign]

theorem unitsOf_joined (hasNames : scheme.HasNames) {parts : List (List Char)}
    (noUnits : ∀ part ∈ parts, unitsOf scheme.names part = []) :
    unitsOf scheme.names ([',', ' '].intercalate parts) = [] := by
  induction parts with
  | nil => exact unitsOf_nil _
  | cons first parts inductionHypothesis =>
      obtain ⟨ofFirst, ofOthers⟩ := List.forall_mem_cons.mp noUnits
      cases parts with
      | nil =>
          rw [List.intercalate_singleton]
          exact ofFirst
      | cons second parts =>
          have ofSpace := unitsOf_separator hasNames [] (c := ' ') (by decide)
          rw [List.intercalate_cons_cons, List.append_assoc, List.cons_append, List.cons_append,
            List.nil_append, unitsOf_separator hasNames first (by decide), ofFirst,
            ← List.nil_append (' ' :: _), ofSpace, unitsOf_nil, inductionHypothesis ofOthers]
          rfl

/-- A converted text has no quantity in it. -/
theorem Arranges.unitsOf_eq_nil (settles : scheme.Settles) {site : Site} {text out : List Char}
    (arranges : scheme.Arranges site text out) (ascii : IsAscii text) :
    unitsOf scheme.names out = [] := by
  induction arranges with
  | swap => exact unitsOf_swapUnits settles ascii
  | turn turns isRead => exact unitsOf_turned settles isRead (isAscii_sum ascii).1
  | @call site text body after call isText found ofBody ofAfter bodyHypothesis afterHypothesis =>
      have isFirst := Call.isFirst found
      obtain ⟨asciiBefore, -, asciiBody, asciiAfter⟩ := isAscii_parts isFirst ascii
      have notName : (lastAfter none (scheme.swapUnits call.before)).any isNameChar = false :=
        ((alike_swapUnits settles.toHasWords call.before).2.lastAfter rfl).trans
          isFirst.hasHead.notName
      have noNumber : ∀ c ∈ call.name, isNumberChar c = false := fun c member =>
        (isFirst.hasHead.spells.class.2 c member).2
      rw [unitsOf_name settles.hasNames notName noNumber (by decide),
        unitsOf_separator settles.hasNames body (by decide), unitsOf_swapUnits settles asciiBefore,
        bodyHypothesis asciiBody, afterHypothesis asciiAfter]
      rfl
  | @arguments text parts split ofParts inductionHypothesis =>
      apply unitsOf_joined settles.hasNames
      refine List.forall_mem_map.mpr fun part member => inductionHypothesis part member ?_
      apply isAscii_part _ ascii
      rw [split]
      exact List.mem_map_of_mem member

end Scheme

end Value

end ContainerPreview
