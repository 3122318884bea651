import ContainerPreview.OrderedMap
import ContainerPreview.Text.Case

/-!
# Unit maps

A unit map sends viewport units to container units.  Type scales with the
inline and the block size of its container rather than with the smaller or the
larger side, so typography has a map of its own, which differs from the general
one in two units.
-/

namespace ContainerPreview

/-- Viewport units with the container units that stand for them. -/
abbrev UnitMap := OrderedMap String

namespace UnitMap

/-- The target of a unit. -/
def target? (units : UnitMap) (unit : String) : Option String :=
  OrderedMap.value? units unit

/-- The target of a unit, or the unit itself if it has none. -/
def targetOrSelf (units : UnitMap) (unit : String) : String :=
  (units.target? unit).getD unit

/-- The map with its units in lower case. -/
def lowerUnits (units : UnitMap) : UnitMap :=
  OrderedMap.ofEntries
    (units.map fun entry => (String.ofList (Text.lower entry.1.toList), entry.2))

/-- Puts a unit in front of the first one that is not longer. -/
def insertLongest (unit : List Char) : List (List Char) → List (List Char)
  | [] => [unit]
  | first :: rest =>
      if first.length ≤ unit.length then unit :: first :: rest
      else first :: insertLongest unit rest

/-- The units of the map, longest first, so that a unit wins over its own
endings.  Units of one length keep their order. -/
def longestFirst (units : UnitMap) : List (List Char) :=
  units.foldr (fun entry sorted => insertLongest entry.1.toList sorted) []

/-- The container units that stand for the viewport units by default. -/
def standard : UnitMap :=
  [("vh", "cqh"), ("vw", "cqw"), ("vmin", "cqmin"), ("vmax", "cqmax"), ("dvh", "cqh"),
    ("dvw", "cqw"), ("lvh", "cqh"), ("lvw", "cqw"), ("svh", "cqh"), ("svw", "cqw")]

/-- The target of a unit in typography, given its target elsewhere. -/
def typographyTarget (unit target : String) : String :=
  if unit == "vmin" then "cqi" else if unit == "vmax" then "cqb" else target

/-- The map for typography that goes with a map for everything else. -/
def forTypography (units : UnitMap) : UnitMap :=
  units.map fun entry => (entry.1, typographyTarget entry.1 entry.2)

/-- The container units that stand for the viewport units in typography by
default. -/
def standardTypography : UnitMap :=
  standard.forTypography

theorem mem_insertLongest {unit other : List Char} {units : List (List Char)} :
    other ∈ insertLongest unit units ↔ other = unit ∨ other ∈ units := by
  induction units with
  | nil => simp [insertLongest]
  | cons first rest inductionHypothesis =>
      rw [insertLongest]
      split
      · simp
      · rw [List.mem_cons, List.mem_cons, inductionHypothesis]
        constructor
        · rintro (here | here | there)
          · exact Or.inr (Or.inl here)
          · exact Or.inl here
          · exact Or.inr (Or.inr there)
        · rintro (here | here | there)
          · exact Or.inr (Or.inl here)
          · exact Or.inl here
          · exact Or.inr (Or.inr there)

/-- Ordering the units of a map neither adds nor loses one. -/
theorem mem_longestFirst {unit : List Char} {units : UnitMap} :
    unit ∈ units.longestFirst ↔ ∃ entry ∈ units, entry.1.toList = unit := by
  induction units with
  | nil => simp [longestFirst]
  | cons entry entries inductionHypothesis =>
      rw [longestFirst, List.foldr_cons, mem_insertLongest, ← longestFirst, inductionHypothesis]
      constructor
      · rintro (same | ⟨other, member, same⟩)
        · exact ⟨entry, by simp, same.symm⟩
        · exact ⟨other, by simp [member], same⟩
      · rintro ⟨other, member, same⟩
        rcases List.mem_cons.mp member with rfl | later
        · exact Or.inl same.symm
        · exact Or.inr ⟨other, later, same⟩

end UnitMap

end ContainerPreview
