import ContainerPreview.Media.Query

/-!
# Conditions of a media list

A media list holds if one of its queries does.  On a screen a query holds
always, never, or under a condition that a container query can state; the list
is translated accordingly into the alternatives that are left.

Three outcomes are told apart.  Nothing (`none`): no query can hold on a
screen.  An empty list: some query always holds.  Otherwise the conditions of
which one has to hold.
-/

namespace ContainerPreview.Media

/-- A hook that changes a query before it is translated. -/
abbrev Hook := String → String

/-- When a query holds on a screen. -/
inductive Verdict where
  | always
  | never
  | under (condition : String)
deriving DecidableEq, Repr

/-- When a negated query holds, given what follows its `not`.  Not being
printed always holds on a screen, and not being a screen never does. -/
def judgeNegated (query : String) (negated : List Char) : Traced Verdict := do
  if names negated "print" then
    return .always
  else
    let condition ← translateQuery (String.ofList negated)
    if condition.isEmpty then
      .emit (.warning "Negated media query never matches a screen" query)
      return .never
    else
      return .under (String.ofList (negate condition.toList))

/-- When a query that applies to screens holds on one. -/
def judge (query : String) : Traced Verdict :=
  match dropNot? query.toList with
  | some negated => judgeNegated query negated
  | none => do
      let condition ← translateQuery query
      return if condition.isEmpty then .always else .under condition

/-- The query as the hook makes it. -/
def applyHook (hook : Option Hook) (query : String) : Traced String :=
  match hook with
  | none => pure query
  | some change => do
      .emit (.hookCalled query)
      return change query

/-- The conditions of the queries of a list, or nothing once a query always
holds. -/
def gather (hook : Option Hook) : List String → Traced (Option (List String))
  | [] => pure (some [])
  | query :: queries =>
      if !appliesToScreen query then gather hook queries
      else do
        let changed ← applyHook hook query
        match ← judge changed with
        | .always => return none
        | .never => gather hook queries
        | .under condition =>
            let conditions ← gather hook queries
            return conditions.map (condition :: ·)

/-- The conditions of a media list: none if it never holds on a screen, and no
condition if it always does. -/
def conditions (hook : Option Hook) (params : String) : Traced (Option (List String)) := do
  match ← gather hook (splitQueries params) with
  | none => return some []
  | some [] => return none
  | some alternatives => return some alternatives

/-- The parameters of a container query that stands for a media list, if it
needs one. -/
def translate (hook : Option Hook) (params : String) : Traced (Option String) := do
  match ← conditions hook params with
  | none | some [] => return none
  | some alternatives => return some (String.intercalate ", " alternatives)

/-- The conditions under which one of `outer` and one of `inner` hold.  A list
without conditions always holds. -/
def combine (outer inner : List String) : List String :=
  if outer.isEmpty then inner
  else if inner.isEmpty then outer
  else outer.flatMap fun left => inner.map fun right => left ++ " and " ++ right

@[simp]
theorem combine_nil_left (inner : List String) : combine [] inner = inner :=
  rfl

@[simp]
theorem combine_nil_right (outer : List String) : combine outer [] = outer := by
  cases outer <;> rfl

end ContainerPreview.Media
