import ContainerPreview.Proofs.Text.Squeeze
import ContainerPreview.Proofs.Value.Sum

/-!
# What conversion makes of a text

A text without literals is a call with text around it, a fluid sum, or a text whose units are
swapped; the body of a call is a text again, or the arguments of `clamp`, each of them a text
between blanks.  `Arranges` says what becomes of each of these, and conversion is that relation:
what is kept where texts are put together holds of the whole conversion, by induction on it.
-/

namespace ContainerPreview

open Text

namespace Value

/-- Where a text stands that is converted: it may be a fluid sum as a whole, or follow a call, or
be the arguments of a call. -/
inductive Site where
  | whole
  | rest
  | arguments
deriving DecidableEq, Repr

/-- What the body of a call is. -/
def MathFunction.site : MathFunction → Site
  | .calc => .whole
  | .clamp => .arguments

namespace Scheme

/-- What conversion makes of a text: `Arranges site text out` says that `text`, which stands at
`site`, becomes `out`. -/
inductive Arranges (scheme : Scheme) : Site → List Char → List Char → Prop where
  /-- The units of a text without calls are swapped if it is not turned around. -/
  | swap {site : Site} {text : List Char} (isText : site ≠ .arguments)
      (noCall : firstCall? text = none) (notSum : site = .whole → ¬ scheme.IsSum text) :
      Arranges scheme site text (scheme.swapUnits text)
  /-- A fluid sum is turned around if it is a whole. -/
  | turn {sum : FluidSum} (turns : scheme.turnsSums) (isRead : sum.IsRead scheme.names) :
      Arranges scheme .whole sum.text (sum.turned scheme)
  /-- A call keeps its name and parentheses, and what follows it is converted. -/
  | call {site : Site} {text body after : List Char} {call : Call} (isText : site ≠ .arguments)
      (found : firstCall? text = some call)
      (ofBody : Arranges scheme call.function.site call.body body)
      (ofAfter : Arranges scheme .rest call.after after) :
      Arranges scheme site text
        (scheme.swapUnits call.before ++ (call.name ++ '(' :: (body ++ ')' :: after)))
  /-- Arguments are trimmed, converted and joined again. -/
  | arguments {text : List Char} {parts : List (List Char × List Char)}
      (split : splitTopLevel ',' text = parts.map Prod.fst)
      (ofParts : ∀ part ∈ parts, Arranges scheme .whole (trim part.1) part.2) :
      Arranges scheme .arguments text ([',', ' '].intercalate (parts.map Prod.snd))

variable {scheme : Scheme}

/-- The conversion of a text where it stands. -/
def convertAt (scheme : Scheme) (site : Site) (text : List Char) : List Char :=
  match site with
  | .whole => scheme.convertCalls true text
  | .rest => scheme.convertCalls false text
  | .arguments => scheme.convertBody .clamp text

theorem skeleton_sum {units : List (List Char)} (names : ∀ unit ∈ units, IsUnitName unit)
    {sum : FluidSum} (isRead : sum.IsRead units) : skeleton sum.text = [] := by
  have ofUnit := (class_of_isUnit names isRead.quantity.isUnit).2
  have ofRem := (class_of_isUnit isUnitName_remUnit isRead.size.isUnit).2
  refine skeleton_eq_nil fun c member => ?_
  simp only [FluidSum.text, FluidSum.addend, List.mem_append, List.mem_cons] at member
  rcases member with (blank | (number | unit) | blank | rfl | blank | size | rem) | blank
  · exact .inr (.inr (isRead.left c blank))
  · exact .inr (.inl (isNumberChar_of_isNumber isRead.quantity.isNumber c number))
  · exact .inl (ofUnit c unit).1
  · exact .inr (.inr (isRead.beforePlus c blank))
  · exact .inr (.inl (by decide))
  · exact .inr (.inr (isRead.afterPlus c blank))
  · exact .inr (.inl (isNumberChar_of_isNumber isRead.size.isNumber c size))
  · exact .inl (ofRem c rem).1
  · exact .inr (.inr (isRead.right c blank))

/-- A sum has no call in it. -/
theorem convertCalls_of_sum (hasNames : scheme.HasNames) {text turned : List Char}
    (isSum : scheme.turnSum? text = some turned) : scheme.convertCalls true text = turned := by
  obtain ⟨-, sum, isRead, rfl, -⟩ := (turnSum?_eq_some_iff hasNames).mp isSum
  have noCall := firstCall?_of_skeleton (skeleton_sum hasNames isRead)
  rw [convertCalls_of_none true noCall, if_pos rfl, isSum]

/-- It does not matter that a body is looked at for a sum before it is for a call. -/
theorem convertPart_eq (hasNames : scheme.HasNames) (text : List Char) :
    scheme.convertPart text = scheme.convertCalls true text := by
  unfold convertPart
  split
  · rename_i turned isSum
    exact (convertCalls_of_sum hasNames isSum).symm
  · rfl

/-- The conversion of a body is that of a text or of arguments. -/
theorem convertBody_eq (hasNames : scheme.HasNames) (function : MathFunction) (body : List Char) :
    scheme.convertBody function body = scheme.convertAt function.site body := by
  cases function with
  | «calc» => exact convertPart_eq hasNames body
  | clamp => rfl

theorem convertAt_arguments (hasNames : scheme.HasNames) (text : List Char) :
    scheme.convertAt .arguments text = [',', ' '].intercalate
      ((splitTopLevel ',' text).map fun argument => scheme.convertAt .whole (trim argument)) := by
  have ofParts : (fun argument => scheme.convertPart (trim argument)) =
      fun argument => scheme.convertAt .whole (trim argument) :=
    funext fun argument => convertPart_eq hasNames (trim argument)
  rw [convertAt, convertBody, ofParts]

theorem convertAt_of_some (hasNames : scheme.HasNames) {site : Site} (isText : site ≠ .arguments)
    {text : List Char} {call : Call} (found : firstCall? text = some call) :
    scheme.convertAt site text =
      scheme.swapUnits call.before ++ (call.name ++ '(' ::
        (scheme.convertAt call.function.site call.body ++ ')' ::
          scheme.convertAt .rest call.after)) := by
  cases site with
  | arguments => exact absurd rfl isText
  | whole =>
      rw [convertAt, convertCalls_of_some true found, convertBody_eq hasNames]
      simp [convertAt]
  | rest =>
      rw [convertAt, convertCalls_of_some false found, convertBody_eq hasNames]
      simp [convertAt]

/-- A text without calls that is no sum has its units swapped. -/
theorem convertAt_of_none (hasNames : scheme.HasNames) {site : Site} (isText : site ≠ .arguments)
    {text : List Char} (noCall : firstCall? text = none)
    (notSum : site = .whole → ¬ scheme.IsSum text) :
    scheme.convertAt site text = scheme.swapUnits text := by
  cases site with
  | arguments => exact absurd rfl isText
  | whole =>
      have notTurned := (turnSum?_eq_none_iff hasNames).mpr (notSum rfl)
      rw [convertAt, convertCalls_of_none true noCall, if_pos rfl, notTurned]
  | rest => rw [convertAt, convertCalls_of_none false noCall, if_neg (by decide)]

/-- What a text is arranged to is its conversion. -/
theorem Arranges.eq_convertAt (hasNames : scheme.HasNames) {site : Site} {text out : List Char}
    (arranges : scheme.Arranges site text out) : out = scheme.convertAt site text := by
  induction arranges with
  | swap isText noCall notSum => exact (convertAt_of_none hasNames isText noCall notSum).symm
  | @turn sum turns isRead =>
      exact (convertCalls_of_sum hasNames
        ((turnSum?_eq_some_iff hasNames).mpr ⟨turns, sum, isRead, rfl, rfl⟩)).symm
  | call isText found ofBody ofAfter bodyHypothesis afterHypothesis =>
      rw [convertAt_of_some hasNames isText found, ← bodyHypothesis, ← afterHypothesis]
  | arguments split ofParts inductionHypothesis =>
      rw [convertAt_arguments hasNames, split, List.map_map]
      congr 1
      exact List.map_congr_left inductionHypothesis

/-- Conversion arranges arguments if it arranges each of them. -/
theorem arranges_arguments (hasNames : scheme.HasNames) {text : List Char}
    (ofParts : ∀ argument ∈ splitTopLevel ',' text,
      scheme.Arranges .whole (trim argument) (scheme.convertAt .whole (trim argument))) :
    scheme.Arranges .arguments text (scheme.convertAt .arguments text) := by
  have split : splitTopLevel ',' text = ((splitTopLevel ',' text).map fun argument =>
      (argument, scheme.convertAt .whole (trim argument))).map Prod.fst := by
    rw [List.map_map]
    exact (List.map_id _).symm
  have joined := Arranges.arguments split (List.forall_mem_map.mpr ofParts)
  rw [List.map_map] at joined
  rw [convertAt_arguments hasNames]
  exact joined

/-- Conversion arranges texts that are not arguments.  The induction is on their length: a body
and what comes after a call are shorter than the text that has the call. -/
theorem arranges_of_length (hasNames : scheme.HasNames) (bound : Nat) {site : Site}
    (isText : site ≠ .arguments) {text : List Char} (within : text.length < bound) :
    scheme.Arranges site text (scheme.convertAt site text) := by
  induction bound generalizing site text with
  | zero => exact absurd within (Nat.not_lt_zero _)
  | succ bound inductionHypothesis =>
      cases found : firstCall? text with
      | some call =>
          have shorter := length_of_firstCall? found
          have ofBody : scheme.Arranges call.function.site call.body
              (scheme.convertAt call.function.site call.body) := by
            cases call.function with
            | «calc» =>
                apply inductionHypothesis
                · exact Site.noConfusion
                · omega
            | clamp =>
                refine arranges_arguments hasNames fun argument member => ?_
                have notLonger := length_le_of_mem_splitTopLevel member
                have trimmed := length_trim_le argument
                apply inductionHypothesis
                · exact Site.noConfusion
                · omega
          rw [convertAt_of_some hasNames isText found]
          exact .call isText found ofBody (inductionHypothesis (by decide) (by omega))
      | none =>
          by_cases isSum : site = .whole ∧ scheme.IsSum text
          · obtain ⟨rfl, turns, sum, isRead, rfl⟩ := isSum
            have same : scheme.convertAt .whole sum.text = sum.turned scheme :=
              convertCalls_of_sum hasNames
                ((turnSum?_eq_some_iff hasNames).mpr ⟨turns, sum, isRead, rfl, rfl⟩)
            rw [same]
            exact .turn turns isRead
          · have notSum : site = .whole → ¬ scheme.IsSum text := fun isWhole sum =>
              isSum ⟨isWhole, sum⟩
            rw [convertAt_of_none hasNames isText found notSum]
            exact .swap isText found notSum

/-- Conversion arranges every text. -/
theorem arranges_convertAt (hasNames : scheme.HasNames) (site : Site) (text : List Char) :
    scheme.Arranges site text (scheme.convertAt site text) := by
  by_cases isText : site = .arguments
  · subst isText
    exact arranges_arguments hasNames fun argument _ =>
      arranges_of_length hasNames _ (by decide) (Nat.lt_succ_self _)
  · exact arranges_of_length hasNames _ isText (Nat.lt_succ_self _)

end Scheme

end Value

end ContainerPreview
