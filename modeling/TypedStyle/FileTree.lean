import TypedStyle.Text.Bytes

/-!
# File trees

A file tree says what there is at each place: nothing, a directory, or a file with its content. A
place is the list of names that lead to it from the root, and the root is always a directory.
`FileTree.get?` is the view through which the operations are described.
-/

namespace TypedStyle

/-- The names that lead from the root to a place. -/
abbrev Place : Type := List String

/-- What there is at a place. -/
inductive Entry where
  | directory
  | file (content : Bytes)
deriving DecidableEq

/-- What there is at all places. -/
structure FileTree where
  entries : List (Place × Entry)

namespace FileTree

def empty : FileTree := ⟨[]⟩

def get? (t : FileTree) (p : Place) : Option Entry :=
  if p = [] then some .directory else t.entries.lookup p

def put (t : FileTree) (p : Place) (e : Entry) : FileTree :=
  ⟨(p, e) :: t.entries.filter fun x => x.1 ≠ p⟩

/-- Takes away what there is at and below a place. -/
def remove (t : FileTree) (p : Place) : FileTree :=
  ⟨t.entries.filter fun x => !p.isPrefixOf x.1⟩

/-- Takes away what there is below a place. -/
def clear (t : FileTree) (p : Place) : FileTree :=
  ⟨t.entries.filter fun x => x.1 = p || !p.isPrefixOf x.1⟩

/-- Puts directories at all places on the way to a place where there is nothing. -/
def putDirectories (t : FileTree) (p : Place) : FileTree :=
  let places := (List.range (p.length + 1)).map p.take
  places.foldl (fun t q => if (t.get? q).isSome then t else t.put q .directory) t

/-! ## The view -/

@[simp]
theorem get?_nil (t : FileTree) : t.get? [] = some .directory := rfl

theorem lookup_filter_of_true (entries : List (Place × Entry)) (keep : Place → Bool) {p : Place}
    (h : keep p = true) : (entries.filter fun x => keep x.1).lookup p = entries.lookup p := by
  induction entries with
  | nil => rfl
  | cons x rest ih =>
    obtain ⟨q, e⟩ := x
    by_cases hq : p = q
    · subst hq
      simp [h]
    · have hne : (p == q) = false := by simpa using hq
      by_cases hk : keep q <;> simp [List.lookup_cons, hk, hne, ih]

theorem lookup_filter_of_false (entries : List (Place × Entry)) (keep : Place → Bool) {p : Place}
    (h : keep p = false) : (entries.filter fun x => keep x.1).lookup p = none := by
  induction entries with
  | nil => rfl
  | cons x rest ih =>
    obtain ⟨q, e⟩ := x
    by_cases hk : keep q
    · have hne : (p == q) = false := by
        simp only [beq_eq_false_iff_ne, ne_eq]
        rintro rfl
        simp [h] at hk
      simp [List.lookup_cons, hk, hne, ih]
    · simp [hk, ih]

theorem get?_put (t : FileTree) {p : Place} (hp : p ≠ []) (e : Entry) (q : Place) :
    (t.put p e).get? q = if q = p then some e else t.get? q := by
  unfold get? put
  by_cases hq : q = p
  · subst hq
    simp [hp]
  · by_cases hroot : q = []
    · simp [hroot, Ne.symm hp]
    · have hne : (q == p) = false := by simpa using hq
      have := lookup_filter_of_true t.entries (fun x => decide (x ≠ p)) (p := q) (by simp [hq])
      simpa [List.lookup_cons, hne, hq, hroot] using this

/-- After a removal there is nothing at and below the place, and all else is as before. -/
theorem get?_remove (t : FileTree) {p : Place} (hp : p ≠ []) (q : Place) :
    (t.remove p).get? q = if p.isPrefixOf q then none else t.get? q := by
  unfold get? remove
  by_cases hroot : q = []
  · subst hroot
    cases p with
    | nil => exact absurd rfl hp
    | cons a p => simp [List.isPrefixOf]
  · simp only [hroot, ↓reduceIte]
    split
    · next h =>
      exact lookup_filter_of_false t.entries (fun x => !p.isPrefixOf x) (by simp [h])
    · next h =>
      exact lookup_filter_of_true t.entries (fun x => !p.isPrefixOf x) (by simp [h])

/-- After clearing there is nothing below the place, and all else is as before. -/
theorem get?_clear (t : FileTree) (p q : Place) :
    (t.clear p).get? q = if q ≠ p ∧ p.isPrefixOf q then none else t.get? q := by
  unfold get? clear
  by_cases hroot : q = []
  · subst hroot
    cases p <;> simp [List.isPrefixOf]
  · simp only [hroot, ↓reduceIte]
    split
    · next h =>
      exact lookup_filter_of_false t.entries (fun x => x = p || !p.isPrefixOf x) (by simp [h])
    · next h =>
      refine lookup_filter_of_true t.entries (fun x => x = p || !p.isPrefixOf x) ?_
      by_cases hq : q = p
      · simp [hq]
      · simp only [ne_eq, hq, not_false_eq_true, true_and, Bool.not_eq_true] at h
        simp [h]

end FileTree

end TypedStyle
