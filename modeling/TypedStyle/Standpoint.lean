import TypedStyle.FileTree

/-!
# Standpoints

Where one stands in a file tree. A directory that is removed while one stands in it can still be
left for the one around it, which may have been removed as well. It has become empty and nothing
can be put into it: what is put at its former place is something else.
-/

namespace TypedStyle

/-- Where one stands: at a place, or in the innermost of `lost` directories, one in the other, that
have been removed from the directory at the place. -/
structure Standpoint where
  /-- The innermost place around that is still in the tree. -/
  place : Place
  /-- How many directories further in one stands. -/
  lost : Nat := 0
deriving DecidableEq

namespace Standpoint

def root : Standpoint := { place := [] }

def entry? (s : Standpoint) (t : FileTree) : Option Entry :=
  if s.lost = 0 then t.get? s.place else some .directory

/-- The directory around the one in which one stands. The root is around itself. -/
def up (s : Standpoint) : Standpoint :=
  if s.lost = 0 then { s with place := s.place.dropLast } else { s with lost := s.lost - 1 }

/-- Where one stands once all that was below a place is removed. -/
def afterClear (s : Standpoint) (p : Place) : Standpoint :=
  if p.isPrefixOf s.place then { place := p, lost := s.lost + (s.place.length - p.length) } else s

/-- Where one stands once a place is removed with all that was below it. -/
def afterRemove (s : Standpoint) (p : Place) : Standpoint :=
  if p.isPrefixOf s.place then s.afterClear p.dropLast else s

@[simp]
theorem afterClear_self (s : Standpoint) : s.afterClear s.place = s := by
  simp [afterClear]

theorem afterClear_of_not_isPrefixOf {s : Standpoint} {p : Place}
    (h : p.isPrefixOf s.place = false) : s.afterClear p = s := by
  simp [afterClear, h]

theorem up_afterRemove_self {s : Standpoint} (hs : s.lost = 0) (hp : s.place ≠ []) :
    (s.afterRemove s.place).up = { place := s.place.dropLast } := by
  have hprefix : s.place.dropLast.isPrefixOf s.place := by
    simp [List.dropLast_prefix]
  have hlength : 0 < s.place.length := List.length_pos_iff.2 hp
  simp only [afterRemove, afterClear, hprefix, List.isPrefixOf_iff_prefix, List.prefix_rfl,
    ↓reduceIte, up, hs, List.length_dropLast]
  have : s.place.length - (s.place.length - 1) = 1 := by omega
  simp [this]

end Standpoint

end TypedStyle
