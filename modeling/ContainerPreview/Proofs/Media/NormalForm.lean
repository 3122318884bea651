import ContainerPreview.Proofs.Media.Restated

/-!
# Translated queries

The condition that a query is translated to is in normal form: none of its innermost groups
states a comparison any more, its blanks are single spaces, and translating it once more
changes nothing.  If the parentheses of the query match, so do those of the condition.
-/

namespace ContainerPreview.Media

open Text Value

/-! ## Matching parentheses -/

/-- How many parentheses are open after a text, if `depth` are open before it.  There is no
answer if one is closed while none is open. -/
def depthAfter? : Nat → List Char → Option Nat
  | depth, [] => some depth
  | depth, c :: text =>
      if c == '(' then depthAfter? (depth + 1) text
      else if c == ')' then
        if depth = 0 then none else depthAfter? (depth - 1) text
      else depthAfter? depth text

/-- The parentheses of a text match. -/
def Matched (text : List Char) : Prop :=
  depthAfter? 0 text = some 0

instance (text : List Char) : Decidable (Matched text) :=
  inferInstanceAs (Decidable (_ = _))

theorem depthAfter?_opening (depth : Nat) (text : List Char) :
    depthAfter? depth ('(' :: text) = depthAfter? (depth + 1) text :=
  rfl

theorem depthAfter?_closing (depth : Nat) (text : List Char) :
    depthAfter? (depth + 1) (')' :: text) = depthAfter? depth text :=
  rfl

theorem depthAfter?_cons_of_isUngrouped (depth : Nat) {c : Char} (noGroup : isUngrouped c)
    (text : List Char) : depthAfter? depth (c :: text) = depthAfter? depth text := by
  simp only [isUngrouped, Bool.and_eq_true, bne_iff_ne] at noGroup
  rw [depthAfter?, if_neg (by simpa using noGroup.1), if_neg (by simpa using noGroup.2)]

theorem depthAfter?_ungrouped (depth : Nat) {between : List Char}
    (noGroup : ∀ c ∈ between, isUngrouped c) (rest : List Char) :
    depthAfter? depth (between ++ rest) = depthAfter? depth rest := by
  induction between with
  | nil => rfl
  | cons c between inductionHypothesis =>
      obtain ⟨here, noGroup⟩ := List.forall_mem_cons.mp noGroup
      rw [List.cons_append, depthAfter?_cons_of_isUngrouped depth here,
        inductionHypothesis noGroup]

theorem depthAfter?_append_ungrouped (depth : Nat) (text : List Char) {after : List Char}
    (noGroup : ∀ c ∈ after, isUngrouped c) :
    depthAfter? depth (text ++ after) = depthAfter? depth text := by
  induction text generalizing depth with
  | nil => simpa [depthAfter?] using depthAfter?_ungrouped depth noGroup []
  | cons c text inductionHypothesis =>
      rw [List.cons_append, depthAfter?, depthAfter?]
      simp only [inductionHypothesis]

theorem depthAfter?_group (depth : Nat) {inside : List Char}
    (noGroup : ∀ c ∈ inside, isUngrouped c) (rest : List Char) :
    depthAfter? depth ('(' :: (inside ++ ')' :: rest)) = depthAfter? depth rest := by
  rw [depthAfter?_opening, depthAfter?_ungrouped _ noGroup, depthAfter?_closing]

/-- A group is replaced by a group, or by two next to each other. -/
theorem depthAfter?_boundGroup (depth : Nat) {inside : List Char}
    (noGroup : ∀ c ∈ inside, isUngrouped c) (rest : List Char) :
    depthAfter? depth (boundGroup inside ++ rest) = depthAfter? depth rest := by
  have noGroups : ∀ bound ∈ boundInsides inside, ∀ c ∈ bound, isUngrouped c :=
    fun bound isBound => isUngrouped_of_mem_boundInsides noGroup isBound
  rcases boundGroup_eq inside with ⟨bound, areBounds, isGroup⟩ | ⟨low, high, areBounds, isGroup, -⟩
  · rw [areBounds, List.forall_mem_singleton] at noGroups
    rw [isGroup]
    simpa using depthAfter?_group depth noGroups rest
  · rw [areBounds, List.forall_mem_cons, List.forall_mem_singleton] at noGroups
    have isAnd : ∀ c ∈ " and ".toList, isUngrouped c := by decide
    have both := depthAfter?_group depth noGroups.1 (" and ".toList ++ '(' :: (high ++ ')' :: rest))
    rw [depthAfter?_ungrouped depth isAnd, depthAfter?_group depth noGroups.2] at both
    rw [isGroup]
    simpa using both

theorem depthAfter?_boundComparisons (depth : Nat) (text : List Char) :
    depthAfter? depth (boundComparisons text) = depthAfter? depth text := by
  induction text using groupInduction generalizing depth with
  | nil =>
      rw [boundComparisons, Joined.mapGroups_nil]
  | group inside after noGroup inductionHypothesis =>
      rw [boundComparisons, Joined.mapGroups_group boundGroup noGroup,
        depthAfter?_boundGroup depth noGroup, depthAfter?_group depth noGroup]
      exact inductionHypothesis depth
  | opening rest reopens inductionHypothesis =>
      rw [boundComparisons, mapGroups_opening boundGroup reopens]
      exact inductionHypothesis (depth + 1)
  | other c rest notOpening inductionHypothesis =>
      have ofRest : ∀ depth, depthAfter? depth (mapGroups boundGroup rest) =
          depthAfter? depth rest := inductionHypothesis
      rw [boundComparisons, mapGroups_cons boundGroup notOpening, depthAfter?, depthAfter?]
      simp only [ofRest]

theorem depthAfter?_squeezeFrom (depth : Nat) (within : Bool) (text : List Char) :
    depthAfter? depth (squeezeFrom within text) = depthAfter? depth text := by
  induction text generalizing depth within with
  | nil => rfl
  | cons c text inductionHypothesis =>
      rw [squeezeFrom]
      split
      · rename_i blank
        rw [depthAfter?_cons_of_isUngrouped depth (isUngrouped_of_isBlank blank)]
        split
        · exact inductionHypothesis depth true
        · rw [depthAfter?_cons_of_isUngrouped depth (by decide), inductionHypothesis depth true]
      · rw [depthAfter?, depthAfter?]
        simp only [inductionHypothesis]

theorem depthAfter?_trim (depth : Nat) (text : List Char) :
    depthAfter? depth (trim text) = depthAfter? depth text := by
  obtain ⟨left, right, same, leftBlank, rightBlank⟩ := exists_append_trim text
  conv_rhs => rw [same]
  rw [depthAfter?_append_ungrouped _ _ fun c member => isUngrouped_of_isBlank (rightBlank c member),
    depthAfter?_ungrouped _ fun c member => isUngrouped_of_isBlank (leftBlank c member)]

/-- With one more parenthesis open before a text, one more is open after it. -/
theorem depthAfter?_succ {depth depth' : Nat} {text : List Char}
    (isAfter : depthAfter? depth text = some depth') :
    depthAfter? (depth + 1) text = some (depth' + 1) := by
  fun_induction depthAfter? depth text with
  | case1 depth => simpa [depthAfter?] using isAfter
  | case2 depth c text isOpening inductionHypothesis =>
      rw [depthAfter?, if_pos isOpening]
      exact inductionHypothesis isAfter
  | case3 => cases isAfter
  | case4 depth c text notOpening isClosing isOpen inductionHypothesis =>
      obtain ⟨before, rfl⟩ := Nat.exists_eq_succ_of_ne_zero isOpen
      rw [depthAfter?, if_neg notOpening, if_pos isClosing, if_neg (Nat.succ_ne_zero _)]
      exact inductionHypothesis isAfter
  | case5 depth c text notOpening notClosing inductionHypothesis =>
      rw [depthAfter?, if_neg notOpening, if_neg notClosing]
      exact inductionHypothesis isAfter

theorem Matched.group {text : List Char} (matched : Matched text) :
    Matched ('(' :: (text ++ [')'])) := by
  have within : ∀ {depth depth' : Nat} {text : List Char},
      depthAfter? depth text = some (depth' + 1) →
        depthAfter? depth (text ++ [')']) = some depth' := by
    intro depth depth' text isAfter
    fun_induction depthAfter? depth text <;> simp_all [depthAfter?]
  exact within (depthAfter?_succ matched)

theorem Matched.parenthesise {text : List Char} (matched : Matched text) :
    Matched (parenthesise text) := by
  unfold Media.parenthesise
  split
  · exact matched
  · exact matched.group

/-! ## The type in front -/

/-- A text is more text after a front without parentheses. -/
def DropsTo (text rest : List Char) : Prop :=
  ∃ front, text = front ++ rest ∧ ∀ c ∈ front, isUngrouped c

namespace DropsTo

variable {text rest rest' : List Char}

theorem refl (text : List Char) : DropsTo text text :=
  ⟨[], rfl, List.forall_mem_nil _⟩

theorem trans (drops : DropsTo text rest) (drops' : DropsTo rest rest') : DropsTo text rest' := by
  obtain ⟨front, rfl, noGroup⟩ := drops
  obtain ⟨front', rfl, noGroup'⟩ := drops'
  exact ⟨front ++ front', (List.append_assoc ..).symm,
    List.forall_mem_append.mpr ⟨noGroup, noGroup'⟩⟩

theorem trimStart (text : List Char) : DropsTo text (trimStart text) :=
  ⟨text.takeWhile isBlank, (takeWhile_append_trimStart text).symm,
    fun _ member => isUngrouped_of_isBlank (List.mem_takeWhile_imp member)⟩

theorem folded {start : List Char} (letters : start.all Char.isLower)
    (dropped : dropStartFolded? start text = some rest) : DropsTo text rest := by
  obtain ⟨word, same, areNames⟩ :=
    exists_word_of_dropStartFolded? (List.all_eq_true.mp letters) dropped
  refine ⟨word, same, fun c member => ?_⟩
  have isName := areNames c member
  simp only [isUngrouped, Bool.and_eq_true, bne_iff_ne]
  constructor <;> rintro rfl <;> exact absurd isName (by decide)

theorem word {word : String} (letters : word.toList.all Char.isLower)
    (dropped : dropWord? word text = some rest) : DropsTo text rest :=
  folded letters (Option.filter_eq_some_iff.mp dropped).1

theorem wordAndBlanks {word : String} (letters : word.toList.all Char.isLower)
    (dropped : dropWordAndBlanks? word text = some rest) : DropsTo text rest := by
  unfold dropWordAndBlanks? at dropped
  split at dropped
  · rename_i c after isWord
    split at dropped
    · rename_i blank
      obtain rfl : Text.trimStart after = rest := Option.some.inj dropped
      refine (folded letters isWord).trans (trans ⟨[c], rfl, ?_⟩ (trimStart after))
      exact List.forall_mem_singleton.mpr (isUngrouped_of_isBlank blank)
    · cases dropped
  · cases dropped

theorem type (dropped : dropType? text = some rest) : DropsTo text rest := by
  simp only [dropType?, Option.or_eq_some_iff] at dropped
  rcases dropped with isAll | ⟨-, isScreen | ⟨-, isPrint⟩⟩
  · exact word (by decide) isAll
  · exact word (by decide) isScreen
  · exact word (by decide) isPrint

/-- No parenthesis is lost with the type in front of a query. -/
theorem typeClause (query : List Char) : DropsTo query (dropTypeClause query) := by
  simp only [dropTypeClause]
  split
  · exact refl query
  · rename_i rest isTyped
    have isType : DropsTo query rest := by
      rcases Option.or_eq_some_iff.mp isTyped with isOnly | ⟨-, isType⟩
      · obtain ⟨typed, isOnly, isType⟩ := Option.bind_eq_some_iff.mp isOnly
        exact ((trimStart query).trans (wordAndBlanks (by decide) isOnly)).trans (type isType)
      · exact (trimStart query).trans (type isType)
    split
    · rename_i condition isAnd
      exact ((isType.trans (trimStart rest)).trans (word (by decide) isAnd)).trans
        (trimStart condition)
    · exact isType.trans (trimStart rest)

theorem matched (drops : DropsTo text rest) (isMatched : Matched text) : Matched rest := by
  obtain ⟨front, rfl, noGroup⟩ := drops
  rw [Matched, depthAfter?_ungrouped 0 noGroup] at isMatched
  exact isMatched

end DropsTo

/-- Before a group there is no type. -/
theorem dropTypeClause_opening (rest : List Char) :
    dropTypeClause ('(' :: rest) = '(' :: rest := by
  have isStart : trimStart ('(' :: rest) = '(' :: rest :=
    trimStart_of_head fun c isHead => by
      obtain rfl : '(' = c := Option.some.inj isHead
      decide
  have noWord : ∀ name : String, name.toList.all Char.isLower → name.toList ≠ [] →
      dropStartFolded? name.toList ('(' :: rest) = none :=
    fun name letters nonempty => dropStartFolded?_opening letters nonempty rest
  simp only [dropTypeClause, isStart, dropWordAndBlanks?, dropType?, dropWord?,
    noWord "only" (by decide) (by decide), noWord "all" (by decide) (by decide),
    noWord "screen" (by decide) (by decide), noWord "print" (by decide) (by decide),
    Option.bind_none, Option.filter_none, Option.or_none]

/-! ## The condition of a query -/

/-- What is left of a query without the type in front of it. -/
def remainder (query : List Char) : List Char :=
  trim (dropTypeClause query)

/-- What is left of the query without its type is empty or begins with a group. -/
def StartsGrouped (query : List Char) : Prop :=
  remainder query = [] ∨ (remainder query).head? = some '('

instance (query : List Char) : Decidable (StartsGrouped query) :=
  inferInstanceAs (Decidable (_ ∨ _))

theorem conditionOf_of_empty {query : List Char} (isEmpty : remainder query = []) :
    conditionOf query = [] := by
  have isEmpty' : trim (dropTypeClause query) = [] := isEmpty
  rw [conditionOf, isEmpty']
  rfl

theorem exists_trim_cons {c : Char} (notBlank : isBlank c = false) (rest : List Char) :
    ∃ later, trim (c :: rest) = c :: later := by
  obtain ⟨left, right, same, leftBlank, -⟩ := exists_append_trim (c :: rest)
  have member : c ∈ trim (c :: rest) := mem_trim List.mem_cons_self notBlank
  cases left with
  | nil =>
      cases trimmed : trim (c :: rest) with
      | nil =>
          rw [trimmed] at member
          cases member
      | cons d later =>
          rw [trimmed] at same
          exact ⟨later, by rw [(List.cons.inj same).1]⟩
  | cons d left =>
      have blank := leftBlank d List.mem_cons_self
      rw [← (List.cons.inj same).1, notBlank] at blank
      cases blank

/-- A condition that begins with a group is not put in parentheses. -/
theorem conditionOf_of_opening {query rest : List Char} (isGroup : remainder query = '(' :: rest) :
    (∃ later, conditionOf query = '(' :: later) ∧
      conditionOf query = trim (squeeze (boundComparisons ('(' :: rest))) := by
  have isGroup' : trim (dropTypeClause query) = '(' :: rest := isGroup
  obtain ⟨bounded, isBounded⟩ := exists_boundComparisons_cons rest
  have isSqueezed : squeeze ('(' :: bounded) = '(' :: squeeze bounded :=
    squeezeFrom_cons_of_not_blank false (by decide) bounded
  obtain ⟨later, isTrimmed⟩ := exists_trim_cons (show isBlank '(' = false by decide)
    (squeeze bounded)
  have isCondition : conditionOf query = '(' :: later := by
    simp only [conditionOf, isGroup', isBounded, isSqueezed, isTrimmed]
    rfl
  exact ⟨⟨later, isCondition⟩, by rw [isCondition, isBounded, isSqueezed, isTrimmed]⟩

/-- Every innermost group of a condition that begins with a group is settled. -/
theorem parse?_of_mem_innermost {query rest inside : List Char}
    (isGroup : remainder query = '(' :: rest) (member : inside ∈ innermost (conditionOf query)) :
    Comparison.parse? inside = none := by
  rw [(conditionOf_of_opening isGroup).2, innermost_trim, squeeze, innermost_squeezeFrom,
    innermost_boundComparisons] at member
  obtain ⟨bound, isBound, rfl⟩ := List.mem_map.mp member
  obtain ⟨asked, -, isBound⟩ := List.mem_flatMap.mp isBound
  exact parse?_squeeze_of_mem_boundInsides isBound

theorem boundGroup_of_none {inside : List Char} (states : Comparison.parse? inside = none) :
    boundGroup inside = '(' :: (inside ++ [')']) := by
  rw [boundGroup, states]
  rfl

theorem boundGroup_of_mem_innermost {query inside : List Char} (begins : StartsGrouped query)
    (member : inside ∈ innermost (conditionOf query)) :
    boundGroup inside = '(' :: (inside ++ [')']) := by
  rcases begins with isEmpty | isGroup
  · rw [conditionOf_of_empty isEmpty] at member
    cases member
  · obtain ⟨rest, isGroup⟩ := List.head?_eq_some_iff.mp isGroup
    exact boundGroup_of_none (parse?_of_mem_innermost isGroup member)

theorem conditionOf_conditionOf {query : List Char} (begins : StartsGrouped query) :
    conditionOf (conditionOf query) = conditionOf query := by
  rcases begins with isEmpty | isGroup
  · rw [conditionOf_of_empty isEmpty]
    decide
  · obtain ⟨rest, isGroup⟩ := List.head?_eq_some_iff.mp isGroup
    obtain ⟨⟨later, isCons⟩, isCondition⟩ := conditionOf_of_opening isGroup
    have isTrimmed : trim (conditionOf query) = conditionOf query := by
      rw [isCondition, trim_trim]
    have isSqueezed : squeeze (conditionOf query) = conditionOf query := by
      rw [isCondition, trim_squeeze]
      exact squeezeFrom_squeezeFrom false _
    have isBounded : boundComparisons (conditionOf query) = conditionOf query :=
      mapGroups_of_fixed fun inside member =>
        boundGroup_of_none (parse?_of_mem_innermost isGroup member)
    have isRemainder : remainder (conditionOf query) = '(' :: later := by
      rw [remainder, isCons, dropTypeClause_opening, ← isCons, isTrimmed, isCons]
    rw [(conditionOf_of_opening isRemainder).2, ← isCons, isBounded, isSqueezed, isTrimmed]

theorem Matched.conditionOf {query : List Char} (matched : Matched query) :
    Matched (conditionOf query) := by
  have isRemainder : depthAfter? 0 (trim (dropTypeClause query)) = some 0 := by
    rw [depthAfter?_trim]
    exact (DropsTo.typeClause query).matched matched
  unfold Media.conditionOf
  simp only []
  split
  · rfl
  · refine Matched.parenthesise ?_
    rw [Matched, depthAfter?_trim, squeeze, depthAfter?_squeezeFrom, depthAfter?_boundComparisons,
      isRemainder]

/-- Translating a query once brings it to its normal form, if it begins with a group once the
type in front is left out, or ends there: translating the result changes nothing, and no
group of it that holds no other group would be bounded once more.  Parentheses that match
before match after. -/
theorem translateQuery_normal (query : String) (begins : StartsGrouped query.toList) :
    let result := (translateQuery query).value
    (translateQuery result).value = result ∧
      (∀ left inside right, result.toList = left ++ '(' :: (inside ++ ')' :: right) →
        (∀ c ∈ inside, isUngrouped c) → boundGroup inside = '(' :: (inside ++ [')'])) ∧
      (Matched query.toList → Matched result.toList) := by
  have isResult : (translateQuery query).value = String.ofList (conditionOf query.toList) := by
    rw [← value_translateQuery, String.ofList_toList]
  simp only [isResult, value_translateQuery, String.toList_ofList]
  refine ⟨by rw [conditionOf_conditionOf begins], fun left inside right isText noGroup => ?_,
    Matched.conditionOf⟩
  refine boundGroup_of_mem_innermost begins ?_
  rw [isText]
  exact mem_innermostFrom none left noGroup right

/-- The type, the blanks and the comparisons of a query are gone after one translation. -/
theorem translateQuery_normal_range :
    let query := "  ONLY screen AND ( 400px<=width <=  700px ) and (not (color))"
    (StartsGrouped query.toList ∧ Matched query.toList) ∧
      (translateQuery query).value =
        "(min-width: 400px) and (max-width: 700px) and (not (color))" ∧
      (translateQuery (translateQuery query).value).value = (translateQuery query).value ∧
      Matched (translateQuery query).value.toList := by
  have begins : StartsGrouped
      "  ONLY screen AND ( 400px<=width <=  700px ) and (not (color))".toList := by decide +kernel
  have matched : Matched
      "  ONLY screen AND ( 400px<=width <=  700px ) and (not (color))".toList := by decide +kernel
  have normal := translateQuery_normal _ begins
  exact ⟨⟨begins, matched⟩, by decide +kernel, normal.1, normal.2.2 matched⟩

end ContainerPreview.Media
