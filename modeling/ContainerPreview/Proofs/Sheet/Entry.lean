import ContainerPreview.Proofs.Sheet.Restored

/-!
# Comments, at-rules and rules that are read again

What has been read from calm tokens as a comment, an at-rule or a rule is restored, if the nodes
in its block are.
-/

namespace ContainerPreview

open Css Text

variable {kind : ListKind} {source : Option String}

/-! ## Padded tokens -/

theorem mem_of_mem_spacedIn {token : Token} {tokens : List Token} (member : token ∈ spacedIn tokens) :
    (∃ other ∈ tokens, token = other.spaced) ∨ token = .single .start (.comment []) := by
  induction tokens with
  | nil => cases member
  | cons first tokens inductionHypothesis =>
      rw [spacedIn, List.mem_cons, List.mem_append] at member
      rcases member with rfl | member | member
      · exact .inl ⟨first, List.mem_cons_self, rfl⟩
      · cases tokens with
        | nil => cases member
        | cons next tokens =>
            rw [commentBetween] at member
            split at member
            · exact .inr (List.mem_singleton.mp member)
            · cases member
      · exact (inductionHypothesis member).imp_left fun ⟨other, inside, same⟩ =>
          ⟨other, List.mem_cons_of_mem first inside, same⟩

theorem mem_of_mem_core {token : Token} {tokens : List Token} (member : token ∈ coreOf tokens) :
    token ∈ tokens := by
  obtain ⟨left, right, isTokens, -⟩ := exists_core tokens
  rw [isTokens]
  exact List.mem_append_left right (List.mem_append_right left member)

/-- What is begun takes padded tokens if it takes the tokens themselves. -/
theorem Padded.takes {tokens padded : List Token} (isPadded : Padded tokens padded) {begun : Begun}
    (isBegun : begun ≠ .nothing) (takes : ∀ token ∈ tokens, begun.takes token) :
    ∀ token ∈ padded, begun.takes token := by
  have takesPlain : ∀ {token : Token}, token.isCurly = false → token.isLiteral ";" = false →
      begun.takes token := fun notCurly notEnd => by
    cases begun with
    | nothing => exact absurd rfl isBegun
    | _ => simp [Begun.takes, notCurly, notEnd]
  have takesGap : ∀ {text : List Char} {token : Token}, token ∈ blanks text → begun.takes token :=
    fun {text token} member => by
      rw [blanks] at member
      split at member
      · cases member
      · obtain rfl := List.mem_singleton.mp member
        exact takesPlain rfl rfl
  obtain ⟨left, right⟩ := isPadded
  intro token member
  rcases List.mem_append.mp member with member | member
  · rcases List.mem_append.mp member with member | member
    · exact takesGap member
    · rcases mem_of_mem_spacedIn member with ⟨other, inside, rfl⟩ | rfl
      · have takesOther := takes other (mem_of_mem_core inside)
        cases begun with
        | nothing => exact absurd rfl isBegun
        | _ => simpa [Begun.takes, isCurly_spaced, isLiteral_spaced] using takesOther
      · exact takesPlain rfl rfl
  · exact takesGap member

/-- Tokens written between blanks are cut into padded tokens. -/
theorem exists_padded {tokens : List Token} (calm : AreCalm tokens) (left : List Char)
    {right : List Char} (leftGaps : left.all Css.isGap) (rightGaps : right.all Css.isGap) :
    ∃ padded, Padded tokens padded ∧ ∀ new, (∀ c ∈ (right ++ new).head?, isStop c) →
      (∀ c ∈ new.head?, Css.isGap c = false) →
        signsOf (left ++ (writeTokens (coreOf tokens) ++ (right ++ new))) =
          signsIn padded ++ signsOf new := by
  by_cases isNone : coreOf tokens = []
  · have areGaps : (left ++ right).all Css.isGap := by rw [List.all_append, leftGaps, rightGaps]; rfl
    have isPadded : Padded tokens (blanks (left ++ right) ++ spacedIn (coreOf tokens) ++ blanks []) :=
      .intro (left ++ right) [] areGaps rfl
    have same : blanks (left ++ right) ++ spacedIn (coreOf tokens) ++ blanks [] =
        blanks (left ++ right) := by
      rw [isNone]
      simp [spacedIn, blanks]
    rw [same] at isPadded
    refine ⟨_, isPadded, fun new _ notGap => ?_⟩
    rw [isNone, ← signsOf_blanks areGaps notGap, List.append_assoc]
    rfl
  · refine ⟨_, .intro left right leftGaps rightGaps, fun new stops notGap => ?_⟩
    have solid := calm.core.solid (isCore_coreOf tokens) isNone
    have notGapHere : ∀ c ∈ (writeTokens (coreOf tokens) ++ (right ++ new)).head?,
        Css.isGap c = false := by
      rw [List.head?_append_of_ne_nil _ solid.nonempty]
      intro c isHead
      refine Bool.eq_false_iff.mpr fun gap => ?_
      have notBlank := solid.trimmed.1 c isHead
      rw [isBlank_of_isGap gap] at notBlank
      cases notBlank
    rw [signsOf_blanks leftGaps notGapHere,
      calm.core.signsOf_writeTokens (isCore_coreOf tokens) stops,
      signsOf_blanks rightGaps notGap, signsIn_append, signsIn_append]
    simp

/-! ## Comments -/

theorem restored_comment {position : Position} {text : List Char} {tokens : List Token}
    (calm : AreCalm (.single position (.comment text) :: tokens)) :
    Restored kind source (.leaf source (.comment (String.ofList text))) := by
  intro depth
  obtain ⟨whole, back, areTidy, cutInto⟩ := calm.excerpt
  obtain ⟨rest, recut, -⟩ := cutInto.exists_recut areTidy
  refine ⟨(indentation depth).toList, (Sign.lexeme (.comment text)).write,
    [.single .start (.comment text)], ?_, areGaps_indentation depth, ⟨'/', _, rfl, rfl⟩,
    rfl, recut.tidy, fun new => ?_, fun more => ?_⟩
  · simp [Node.cssAt, Leaf.css, Sign.write, writeLexeme]
  · exact (recut.cuts new (endsBefore_of_noBars rfl rfl new)).signsOf
  · exact readList_token rfl rfl more

/-! ## At-rules -/

/-- The name of an at-rule as it is read. -/
def atRuleName (name : List Char) : String :=
  String.ofList (lowerAscii name)

theorem readList_atKeyword (name : List Char) (rest : List Token) :
    readList kind source .nothing (.single .start (.atKeyword name) :: rest) =
      readList kind source (.atRule (atRuleName name) []) rest := by
  have isRead : readToken kind source .nothing (.single .start (.atKeyword name)) =
      .ok (.atRule (atRuleName name) [], []) := by
    cases kind <;> rfl
  rw [readList_token rfl isRead]
  exact map_nil_append _

section AtRules

variable {name : List Char} {prelude : List Token}

/-- The text of an at-rule up to its end or its block. -/
theorem toList_atRuleStart (name : List Char) (calm : AreCalm prelude) :
    ∃ left : List Char, left.all Css.isGap ∧ (∀ c ∈ left.head?, isStop c) ∧
      (left = [] → coreOf prelude = []) ∧
      (atRuleStart (atRuleName name) (textOf prelude)).toList =
        '@' :: lowerAscii name ++ (left ++ writeTokens (coreOf prelude)) := by
  by_cases isNone : coreOf prelude = []
  · have isEmpty : textOf prelude = "" := by
      rw [← String.toList_eq_nil_iff, toList_textOf calm, isNone]
      rfl
    refine ⟨[], rfl, by rintro _ ⟨⟩, fun _ => isNone, ?_⟩
    rw [isNone, isEmpty]
    simp [atRuleStart, atRuleName, writeTokens, writeAfter]
  · have solid := calm.core.solid (isCore_coreOf prelude) isNone
    have notEmpty : (textOf prelude).isEmpty = false := by
      rw [← Bool.not_eq_true, String.isEmpty_iff, ← String.toList_eq_nil_iff, toList_textOf calm]
      exact solid.nonempty
    refine ⟨[' '], rfl, by rintro _ ⟨⟩; rfl, by rintro ⟨⟩, ?_⟩
    simp [atRuleStart, atRuleName, notEmpty, toList_textOf calm]

theorem begins_atRuleStart (name params : String) : Begins (atRuleStart name params).toList := by
  refine ⟨'@', name.toList ++ (if params.isEmpty then "" else " " ++ params).toList, ?_, rfl⟩
  simp [atRuleStart]

theorem tidy_atRuleStart (isIdent : IsIdent name) (calm : AreCalm prelude) :
    (atRuleStart (atRuleName name) (textOf prelude)).toList.all isTidy := by
  obtain ⟨left, leftGaps, -, -, isText⟩ := toList_atRuleStart name calm
  have leftTidy : left.all isTidy := List.all_eq_true.mpr fun c member =>
    Rereads.isTidy_of_isGap (List.all_eq_true.mp leftGaps c member)
  rw [isText, List.cons_append, List.all_cons, List.all_append, List.all_append,
    isIdent.lowerAscii.tidy, leftTidy, calm.core.tidy]
  rfl

/-- What is written of an at-rule up to its end or its block is cut into its name and its
parameters. -/
theorem signsOf_atRuleStart (isIdent : IsIdent name) (calm : AreCalm prelude) (gaps : List Char)
    (areGaps : gaps.all Css.isGap) :
    ∃ padded, Padded prelude padded ∧ ∀ new, (∀ c ∈ (gaps ++ new).head?, isStop c) →
      (∀ c ∈ new.head?, Css.isGap c = false) →
        signsOf ((atRuleStart (atRuleName name) (textOf prelude)).toList ++ (gaps ++ new)) =
          signsIn (.single .start (.atKeyword (lowerAscii name)) :: padded) ++ signsOf new := by
  obtain ⟨left, leftGaps, leftStops, noCore, isText⟩ := toList_atRuleStart name calm
  obtain ⟨padded, isPadded, isCut⟩ := exists_padded calm left leftGaps areGaps
  refine ⟨padded, isPadded, fun new stops notGap => ?_⟩
  have stopsHere : ∀ c ∈ (left ++ (writeTokens (coreOf prelude) ++ (gaps ++ new))).head?, isStop c := by
    cases left with
    | nil =>
        rw [noCore rfl]
        exact stops
    | cons c left => exact leftStops
  rw [isText, List.append_assoc, List.append_assoc,
    signsOf_atKeyword isIdent.lowerAscii stopsHere, isCut new stops notGap]
  rfl

/-- An at-rule is read up to its end or its block. -/
theorem readList_atRuleStart {padded : List Token} (isPadded : Padded prelude padded)
    (takes : ∀ token ∈ prelude, (Begun.atRule (atRuleName name) []).takes token)
    (rest : List Token) :
    readList kind source .nothing
        (.single .start (.atKeyword (lowerAscii name)) :: (padded ++ rest)) =
      readList kind source (.atRule (atRuleName name) padded.reverse) rest := by
  have sameName : atRuleName (lowerAscii name) = atRuleName name := by
    rw [atRuleName, lowerAscii_lowerAscii, atRuleName]
  have takesAll : ∀ token ∈ padded, (Begun.atRule (atRuleName name) []).takes token :=
    isPadded.takes (by simp) takes
  rw [readList_atKeyword, sameName, readList_pushAll takesAll, Begun.pushAll_atRule, List.append_nil]

/-- The token that ends an entry. -/
def semicolon : Token :=
  .single .start (.literal [';'])

theorem signsOf_semicolon (new : List Char) :
    signsOf (';' :: new) = signsIn [semicolon] ++ signsOf new :=
  signsOf_single rfl

/-- A semicolon ends an at-rule. -/
theorem readToken_semicolon_atRule {entries : List Node} {name : String}
    (ended : endOfList source (.atRule name prelude) = .ok entries) :
    readToken kind source (.atRule name prelude) semicolon = .ok (.nothing, entries) := by
  have isEnd : Token.isLiteral ";" semicolon = true := rfl
  rw [readToken, if_pos isEnd, ended]
  rfl

theorem restored_atRule (isIdent : IsIdent name) (calm : AreCalm prelude)
    (takes : ∀ token ∈ prelude, (Begun.atRule (atRuleName name) []).takes token) :
    Restored kind source
      (.block source (.atRule (atRuleName name) (textOf prelude) false) false []) := by
  intro depth
  obtain ⟨padded, isPadded, isCut⟩ := signsOf_atRuleStart isIdent calm [] rfl
  refine ⟨(indentation depth).toList,
    (atRuleStart (atRuleName name) (textOf prelude)).toList ++ [';'],
    .single .start (.atKeyword (lowerAscii name)) :: (padded ++ [semicolon]),
    ?_, areGaps_indentation depth, (begins_atRuleStart _ _).append [';'], ?_, ?_, fun new => ?_,
    fun more => ?_⟩
  · simp [Node.cssAt]
  · simp [flawlessIn, flawlessIn_append, isPadded.flawless calm, Token.isFlawless, semicolon]
  · rw [List.all_append, tidy_atRuleStart isIdent calm]
    rfl
  · have whole := isCut (';' :: new) (by rintro _ ⟨⟩; rfl) (by rintro _ ⟨⟩; rfl)
    rw [signsOf_semicolon] at whole
    rw [List.append_assoc]
    refine whole.trans ?_
    rw [← List.append_assoc, ← signsIn_append]
    rfl
  · have isRead : readToken kind source (.atRule (atRuleName name) padded.reverse) semicolon =
        .ok (.nothing,
          [.block source (.atRule (atRuleName name) (textOf prelude) false) false []]) := by
      have ended : endOfList source (.atRule (atRuleName name) padded.reverse) =
          .ok [.block source (.atRule (atRuleName name) (textOf prelude) false) false []] := by
        rw [endOfList, List.reverse_reverse, textOf_padded calm isPadded]
      exact readToken_semicolon_atRule ended
    rw [List.cons_append, List.append_assoc, readList_atRuleStart isPadded takes]
    exact readList_token rfl isRead more

theorem restored_atRuleBlock {children : List Node} (isIdent : IsIdent name) (calm : AreCalm prelude)
    (takes : ∀ token ∈ prelude, (Begun.atRule (atRuleName name) []).takes token)
    (restored : ∀ node ∈ children, Restored (.ofAtRule (atRuleName name)) source node) :
    Restored kind source
      (.block source (.atRule (atRuleName name) (textOf prelude) true) false children) := by
  intro depth
  obtain ⟨padded, isPadded, isCut⟩ := signsOf_atRuleStart isIdent calm [' '] rfl
  obtain ⟨content, flawless, tidy, isBlock, isRead⟩ := exists_content depth restored
  refine ⟨(indentation depth).toList, (atRuleStart (atRuleName name) (textOf prelude)).toList ++
      (' ' :: (braces depth (linesAt (depth + 1) children)).toList),
    .single .start (.atKeyword (lowerAscii name)) :: (padded ++ [.group .start .curly content]),
    ?_, areGaps_indentation depth, (begins_atRuleStart _ _).append _, ?_, ?_, fun new => ?_,
    fun more => ?_⟩
  · simp [Node.cssAt]
  · simp [flawlessIn, flawlessIn_append, isPadded.flawless calm, Token.isFlawless, flawless]
  · rw [List.all_append, tidy_atRuleStart isIdent calm, List.all_cons, tidy]
    rfl
  · have whole := isCut ((braces depth (linesAt (depth + 1) children)).toList ++ new)
      (by rintro _ ⟨⟩; rfl) (by rw [toList_braces]; rintro _ ⟨⟩; rfl)
    rw [isBlock] at whole
    rw [List.append_assoc]
    refine whole.trans ?_
    rw [← List.append_assoc, ← signsIn_append]
    rfl
  · have sameText := textOf_padded calm isPadded
    have isHead : blockHead? kind (.atRule (atRuleName name) padded.reverse) =
        some (.atRule (atRuleName name) (textOf prelude) true, .ofAtRule (atRuleName name)) := by
      rw [blockHead?, List.reverse_reverse, sameText]
    rw [List.cons_append, List.append_assoc, readList_atRuleStart isPadded takes, List.singleton_append,
      readList_block isHead, isRead]
    cases readList kind source .nothing more <;> rfl

end AtRules

/-! ## Rules -/

/-- A rule begins with the token. -/
def ListKind.startsRule (kind : ListKind) (token : Token) : Bool :=
  kind != .declarations && !token.isCurly && !kind.skips token &&
    match token with
    | .single _ (.comment _) | .single _ (.atKeyword _) => false
    | _ => true

theorem startsRule_spaced (token : Token) : kind.startsRule token.spaced = kind.startsRule token := by
  cases token with
  | single => rfl
  | group position opener content => cases kind <;> cases opener <;> rfl

theorem notGap_of_startsRule {token : Token} (starts : kind.startsRule token) :
    token.isGap = false ∧ token.isCurly = false := by
  simp only [ListKind.startsRule, Bool.and_eq_true, Bool.not_eq_true'] at starts
  refine ⟨Bool.eq_false_iff.mpr fun gap => ?_, starts.1.1.2⟩
  cases token with
  | group => cases gap
  | single position content =>
      cases content with
      | blank => cases starts.1.2
      | _ => cases gap

/-- The first token of a rule begins it. -/
theorem readList_startsRule {token : Token} (starts : kind.startsRule token) (rest : List Token) :
    readList kind source .nothing (token :: rest) =
      readList kind source (.rule token.position [token]) rest := by
  have notCurly := (notGap_of_startsRule starts).2
  simp only [ListKind.startsRule, Bool.and_eq_true, Bool.not_eq_true', bne_iff_ne] at starts
  obtain ⟨⟨⟨notDeclarations, -⟩, notSkipped⟩, isOther⟩ := starts
  have isRead : readToken kind source .nothing token = .ok (.rule token.position [token], []) := by
    have begins : kind.begins token = .rule token.position [token] := by
      cases kind with
      | declarations => exact absurd rfl notDeclarations
      | _ =>
          cases token with
          | group => rfl
          | single position content =>
              cases content with
              | atKeyword => cases isOther
              | _ => rfl
    cases token with
    | group => simp only [readToken, notSkipped, begins]; rfl
    | single position content =>
        cases content with
        | comment => cases isOther
        | _ => simp only [readToken, notSkipped, begins]; rfl
  rw [readList_token (readBlock?_of_not_isCurly notCurly .nothing) isRead]
  exact map_nil_append _

theorem restored_emptyRule {children : List Node} (notDeclarations : kind ≠ .declarations)
    (restored : ∀ node ∈ children, Restored .declarations source node) :
    Restored kind source (.block source (.rule "") false children) := by
  intro depth
  obtain ⟨content, flawless, tidy, isBlock, isRead⟩ := exists_content depth restored
  refine ⟨(indentation depth).toList ++ [' '], (braces depth (linesAt (depth + 1) children)).toList,
    [.group .start .curly content], ?_, ?_, ?_, ?_, tidy, isBlock, fun more => ?_⟩
  · simp [Node.cssAt]
  · rw [List.all_append, areGaps_indentation]
    rfl
  · rw [toList_braces]
    exact ⟨'\x7b', _, rfl, rfl⟩
  · simp [flawlessIn, Token.isFlawless, flawless]
  · have isHead : blockHead? kind .nothing = some (.rule "", .declarations) := by
      cases kind <;> first | rfl | exact absurd rfl notDeclarations
    rw [List.singleton_append, readList_block isHead, isRead]
    cases readList kind source .nothing more <;> rfl

theorem begins_of_solid {text : List Char} (solid : Solid text) : Begins text := by
  obtain ⟨c, more, rfl⟩ := List.exists_cons_of_ne_nil solid.nonempty
  refine ⟨c, more, rfl, Bool.eq_false_iff.mpr fun gap => ?_⟩
  have notBlank := solid.trimmed.1 c rfl
  rw [isBlank_of_isGap gap] at notBlank
  cases notBlank

/-- Tokens that begin with no blank begin as their core does. -/
theorem exists_core_cons {first : Token} (notGap : first.isGap = false) (others : List Token) :
    ∃ more, coreOf (first :: others) = first :: more := by
  obtain ⟨left, right, isTokens, leftGaps, rightGaps⟩ := exists_core (first :: others)
  cases left with
  | cons token left =>
      obtain ⟨rfl, -⟩ := List.cons.inj isTokens
      rw [leftGaps first List.mem_cons_self] at notGap
      cases notGap
  | nil =>
      cases isCore : coreOf (first :: others) with
      | nil =>
          rw [isCore] at isTokens
          have inRight : first ∈ right := by
            rw [List.nil_append, List.nil_append] at isTokens
            rw [← isTokens]
            exact List.mem_cons_self
          rw [rightGaps first inRight] at notGap
          cases notGap
      | cons token more =>
          rw [isCore] at isTokens
          obtain ⟨rfl, -⟩ := List.cons.inj isTokens
          exact ⟨more, rfl⟩

/-- Tokens that begin with no blank still begin with the same one when a blank is put behind
them. -/
theorem exists_padded_cons {first : Token} (notGap : first.isGap = false) (others : List Token) :
    ∃ tail, Padded (first :: others) (first.spaced :: tail) ∧
      signsIn (first.spaced :: tail) =
        signsIn (spacedIn (coreOf (first :: others))) ++ signsIn (blanks [' ']) := by
  obtain ⟨more, isCore⟩ := exists_core_cons notGap others
  refine ⟨commentBetween first more ++ spacedIn more ++ blanks [' '], ?_⟩
  have isList : blanks [] ++ spacedIn (coreOf (first :: others)) ++ blanks [' '] =
      first.spaced :: (commentBetween first more ++ spacedIn more ++ blanks [' ']) := by
    rw [isCore, spacedIn]
    simp [blanks]
  rw [← isList]
  refine ⟨.intro [] [' '] rfl rfl, ?_⟩
  rw [signsIn_append]
  rfl

theorem restored_rule {children : List Node} {first : Token} {others : List Token}
    (starts : kind.startsRule first) (calm : AreCalm (first :: others))
    (noCurly : ∀ token ∈ others, token.isCurly = false)
    (restored : ∀ node ∈ children, Restored .declarations source node) :
    Restored kind source (.block source (.rule (textOf (first :: others))) false children) := by
  intro depth
  obtain ⟨content, flawless, tidy, isBlock, isRead⟩ := exists_content depth restored
  obtain ⟨notGap, notCurly⟩ := notGap_of_startsRule starts
  obtain ⟨tail, isPadded, isTokens⟩ := exists_padded_cons notGap others
  have nonempty : coreOf (first :: others) ≠ [] := by
    obtain ⟨more, isCore⟩ := exists_core_cons notGap others
    rw [isCore]
    exact List.cons_ne_nil first more
  have solid := calm.core.solid (isCore_coreOf (first :: others)) nonempty
  refine ⟨(indentation depth).toList, writeTokens (coreOf (first :: others)) ++
      (' ' :: (braces depth (linesAt (depth + 1) children)).toList),
    first.spaced :: (tail ++ [.group .start .curly content]),
    ?_, areGaps_indentation depth, ?_, ?_, ?_, fun new => ?_, fun more' => ?_⟩
  · simp [Node.cssAt, toList_textOf calm]
  · exact Begins.append (begins_of_solid solid) _
  · have paddedFlawless := isPadded.flawless calm
    rw [← List.cons_append, flawlessIn_append, paddedFlawless]
    simp [flawlessIn, Token.isFlawless, flawless]
  · rw [List.all_append, calm.core.tidy, List.all_cons, tidy]
    rfl
  · have isBlank :
        signsOf ([' '] ++ ((braces depth (linesAt (depth + 1) children)).toList ++ new)) = _ :=
      signsOf_blanks rfl (by rw [toList_braces]; rintro _ ⟨⟩; rfl)
    rw [List.append_assoc, calm.core.signsOf_writeTokens (isCore_coreOf (first :: others))
      (by rintro _ ⟨⟩; rfl), ← List.cons_append, signsIn_append, isTokens]
    rw [isBlock] at isBlank
    simpa using isBlank
  · have takesAll : ∀ token ∈ first :: others,
        (Begun.rule first.spaced.position [first.spaced]).takes token := by
      simpa [Begun.takes, notCurly] using noCurly
    have takes := (List.forall_mem_cons.mp (isPadded.takes (by simp) takesAll)).2
    obtain ⟨last, isBegun⟩ := Begun.exists_pushAll_rule first.spaced.position [first.spaced] tail
    have isHead : blockHead? kind (.rule last (tail.reverse ++ [first.spaced])) =
        some (.rule (textOf (first :: others)), .declarations) := by
      rw [blockHead?, List.reverse_append, List.reverse_reverse, List.reverse_singleton,
        List.singleton_append, textOf_padded calm isPadded]
    rw [List.cons_append, readList_startsRule (startsRule_spaced first ▸ starts), List.append_assoc,
      readList_pushAll takes, isBegun, List.singleton_append, readList_block isHead, isRead]
    cases readList kind source .nothing more' <;> rfl

end ContainerPreview
