/-!
# Scopes

A scope binds names to values, block by block. The frame of the sheet is always there; each block
that is open adds a frame of its own. A name means what the innermost frame that binds it says.
-/

namespace TypedStyle

/-- The bindings of one block, the latest first. -/
abbrev Frame (α : Type) : Type := List (String × α)

/-- The frames of all open blocks and of the sheet. -/
structure Scope (α : Type) where
  /-- The frames of the open blocks, the innermost first. -/
  blocks : List (Frame α)
  root : Frame α

namespace Scope

variable {α : Type}

def empty : Scope α := ⟨[], []⟩

def push (s : Scope α) : Scope α :=
  { s with blocks := [] :: s.blocks }

/-- Closes the innermost block. The frame of the sheet cannot be closed. -/
def pop? (s : Scope α) : Option (Scope α) :=
  match s.blocks with
  | [] => none
  | _ :: blocks => some { s with blocks }

/-- Closes the innermost block, if a block is open. -/
def pop (s : Scope α) : Scope α :=
  s.pop?.getD s

/-- Binds a name in the innermost frame. A later binding of a name hides an earlier one. -/
def declare (s : Scope α) (name : String) (value : α) : Scope α :=
  match s.blocks with
  | [] => { s with root := (name, value) :: s.root }
  | frame :: blocks => { s with blocks := ((name, value) :: frame) :: blocks }

def frames (s : Scope α) : List (Frame α) :=
  s.blocks ++ [s.root]

/-- What a name is bound to: the latest binding in the innermost frame that binds it. -/
def resolve (s : Scope α) (name : String) : Option α :=
  s.frames.findSome? (List.lookup name)

def depth (s : Scope α) : Nat :=
  s.frames.length

@[simp]
theorem depth_empty : (empty : Scope α).depth = 1 := rfl

@[simp]
theorem depth_push (s : Scope α) : s.push.depth = s.depth + 1 := by
  simp [depth, frames, push]

@[simp]
theorem depth_declare (s : Scope α) (name : String) (value : α) :
    (s.declare name value).depth = s.depth := by
  unfold declare depth frames
  split <;> simp_all

@[simp]
theorem pop_push (s : Scope α) : s.push.pop = s := rfl

@[simp]
theorem resolve_push (s : Scope α) (name : String) : s.push.resolve name = s.resolve name := rfl

end Scope

end TypedStyle
