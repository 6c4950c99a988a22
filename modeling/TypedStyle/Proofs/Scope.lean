import TypedStyle.Folding
import TypedStyle.Typing.Check

/-!
# Scopes along a walk

Checking and folding walk a tree with a scope: they open a block, bind its assignments, visit what
is inside and close it again. This module describes the walk by what it does to the scope.
-/

namespace TypedStyle

namespace Scope

variable {α : Type}

@[simp]
theorem resolve_empty (name : String) : (empty : Scope α).resolve name = none := rfl

/-- A bound name means its new value, and every other name what it meant before. -/
theorem resolve_declare (s : Scope α) (name : String) (value : α) (other : String) :
    (s.declare name value).resolve other =
      if other = name then some value else s.resolve other := by
  -- The binding is put into the innermost open block, or at the root if none is open.
  obtain ⟨blocks, root⟩ := s
  by_cases h : other = name
  · subst h
    cases blocks <;> simp [declare, resolve, frames]
  · have hne : (other == name) = false := by simpa using h
    cases blocks <;>
      simp [declare, resolve, frames, List.findSome?_cons, List.lookup_cons, h, hne]

def Opens (outer inner : Scope α) : Prop :=
  ∃ frame, inner = { outer with blocks := frame :: outer.blocks }

theorem opens_push (s : Scope α) : Opens s s.push :=
  ⟨[], rfl⟩

theorem Opens.declare {outer inner : Scope α} (h : Opens outer inner) (name : String) (value : α) :
    Opens outer (inner.declare name value) := by
  obtain ⟨frame, rfl⟩ := h
  exact ⟨(name, value) :: frame, rfl⟩

theorem Opens.pop {outer inner : Scope α} (h : Opens outer inner) : inner.pop = outer := by
  obtain ⟨frame, rfl⟩ := h
  rfl

end Scope

/-! ## Checking -/

namespace Checked

theorem opens_assignments {outer scope : Scope Ty} (h : outer.Opens scope)
    (as : List Assignment) : outer.Opens (assignments scope as).scope := by
  induction as generalizing scope with
  | nil => exact h
  | cons a rest ih => exact ih (h.declare ..)

theorem scope_block_of (scope : Scope Ty) (body : List Statement) {rest : Scope Ty → Checked}
    (h : ∀ inner, (rest inner).scope = inner) : (block scope body rest).scope = scope := by
  simp only [block, h]
  exact (opens_assignments scope.opens_push _).pop

mutual

theorem scope_statement (scope : Scope Ty) : ∀ s, (statement scope s).scope = scope
  | .assign _ => rfl
  | .declare .. => rfl
  | .ifThen _ _ body _ => scope_block_of scope body fun inner => scope_statements inner body
  | .ifElse _ _ body alternative _ _ => by
    have htaken := scope_block_of scope body fun inner => scope_statements inner body
    have hother := scope_block_of scope alternative fun inner => scope_statements inner alternative
    simp only [statement, htaken, hother]

theorem scope_statements (scope : Scope Ty) : ∀ body, (statements scope body).scope = scope
  | [] => rfl
  | s :: rest => by
    simp only [statements, scope_statement scope s]
    exact scope_statements scope rest

end

/-- Checking a block leaves the scope as it was. -/
theorem scope_block (scope : Scope Ty) (body : List Statement) :
    (block scope body fun inner => statements inner body).scope = scope :=
  scope_block_of scope body fun inner => scope_statements inner body

end Checked

/-! ## Folding -/

namespace Folded

theorem opens_assignments {outer scope : Scope Literal} (h : outer.Opens scope)
    (as : List Assignment) : outer.Opens (assignments scope as).1 := by
  induction as generalizing scope with
  | nil => exact h
  | cons a rest ih =>
    simp only [assignments]
    split
    · exact ih (h.declare ..)
    · exact h

theorem scope_block_of (scope : Scope Literal) (body : List Statement)
    {rest : Scope Literal → Folded (List Statement)} (h : ∀ inner, (rest inner).scope = inner) :
    (block scope body rest).scope = scope := by
  have hopens := opens_assignments scope.opens_push (Statement.assignments body)
  simp only [block]
  split
  · -- The block is closed even if one of its assignments cannot be evaluated.
    next hbound => simpa [hbound] using hopens.pop
  · next hbound =>
    rw [hbound] at hopens
    split <;> simpa [h] using hopens.pop

mutual

theorem scope_statement (scope : Scope Literal) : ∀ s, (statement scope s).scope = scope
  | .assign _ => rfl
  | .declare _ value _ => by
    simp only [statement]
    split <;> rfl
  | .ifThen _ condition body _ => by
    have htaken := scope_block_of scope body fun inner => scope_statements inner body
    simp only [statement]
    split
    · rfl
    · exact htaken
  | .ifElse _ condition body alternative _ _ => by
    have htaken := scope_block_of scope body fun inner => scope_statements inner body
    have hother := scope_block_of scope alternative fun inner => scope_statements inner alternative
    simp only [statement]
    split
    · rfl
    · split
      · exact htaken
      · rw [htaken]
        exact hother

theorem scope_statements (scope : Scope Literal) : ∀ body, (statements scope body).scope = scope
  | [] => rfl
  | s :: rest => by
    have hfirst := scope_statement scope s
    simp only [statements]
    split
    · exact hfirst
    · rw [hfirst]
      exact scope_statements scope rest

end

/-- Folding a block leaves the scope as it was, whether or not it fails. -/
theorem scope_block (scope : Scope Literal) (body : List Statement) :
    (block scope body fun inner => statements inner body).scope = scope :=
  scope_block_of scope body fun inner => scope_statements inner body

end Folded

end TypedStyle
