import TypedStyle.FileTree

/-!
# Changes of file trees

Two relations between trees say what a whole sequence of operations does: `FileTree.Removes` when
things are taken away, and `FileTree.Writes` when directories are made and files are written.
Putting, removing and clearing keep a tree well-formed, so that all there is stands in a directory.
-/

namespace TypedStyle

namespace FileTree

variable {p : Place} {e : Entry} {t : FileTree}

/-! ## Well-formed trees -/

/-- Whatever there is stands in a directory. -/
def WellFormed (t : FileTree) : Prop :=
  ∀ p e, t.get? p = some e → t.get? p.dropLast = some .directory

theorem get?_empty (hp : p ≠ []) : empty.get? p = none := by
  simp [get?, empty, hp]

theorem wellFormed_empty : empty.WellFormed := by
  intro p e h
  by_cases hp : p = []
  · rw [hp]
    rfl
  · simp [get?_empty hp] at h

theorem mem_of_lookup {entries : List (Place × Entry)} (h : entries.lookup p = some e) :
    (p, e) ∈ entries := by
  induction entries with
  | nil => simp at h
  | cons x rest ih =>
    obtain ⟨q, e'⟩ := x
    rw [List.lookup_cons] at h
    split at h
    · next heq =>
      obtain rfl : p = q := by simpa using heq
      rw [Option.some.inj h]
      exact List.mem_cons_self
    · exact List.mem_cons_of_mem _ (ih h)

theorem wellFormed_of_entries (h : ∀ x ∈ t.entries, t.get? x.1.dropLast = some .directory) :
    t.WellFormed := by
  intro p e hp
  unfold get? at hp
  split at hp
  · next hroot =>
    rw [hroot]
    rfl
  · exact h (p, e) (mem_of_lookup hp)

theorem WellFormed.directory_of_append (ht : t.WellFormed) {q : Place} (hq : q ≠ [])
    (h : t.get? (p ++ q) = some e) : t.get? p = some .directory := by
  induction q generalizing p with
  | nil => exact absurd rfl hq
  | cons name rest ih =>
    -- Something is one place further: the last thing itself, or a directory on the way to it.
    have hchild : ∃ e', t.get? (p ++ [name]) = some e' := by
      by_cases hrest : rest = []
      · exact ⟨e, by simpa [hrest] using h⟩
      · exact ⟨.directory, ih hrest (by simpa using h)⟩
    obtain ⟨e', he'⟩ := hchild
    simpa using ht _ _ he'

theorem WellFormed.put (ht : t.WellFormed) (hp : p ≠ [])
    (hparent : t.get? p.dropLast = some .directory)
    (he : e = .directory ∨ t.get? p ≠ some .directory) : (t.put p e).WellFormed := by
  intro q e' hq
  rw [get?_put t hp] at hq ⊢
  by_cases hdir : q.dropLast = p
  · -- What stands in `p` stood there before, so that there was a directory.
    have hne : q ≠ p := by
      rintro rfl
      have hlength := congrArg List.length hdir
      have hpos := List.length_pos_iff.2 hp
      rw [List.length_dropLast] at hlength
      omega
    rw [if_neg hne] at hq
    have hwas : t.get? p = some .directory := hdir ▸ ht q e' hq
    rw [if_pos hdir, he.resolve_right fun h => h hwas]
  · rw [if_neg hdir]
    by_cases hqp : q = p
    · rw [hqp]
      exact hparent
    · rw [if_neg hqp] at hq
      exact ht q e' hq

theorem WellFormed.remove (ht : t.WellFormed) (hp : p ≠ []) : (t.remove p).WellFormed := by
  intro q e hq
  rw [get?_remove t hp] at hq ⊢
  split at hq
  · simp at hq
  · next hprefix =>
    rw [if_neg, ht q e hq]
    -- If its directory had been removed, it would be gone too.
    intro hdir
    rw [List.isPrefixOf_iff_prefix] at hprefix hdir
    exact hprefix (hdir.trans (List.dropLast_prefix q))

theorem WellFormed.clear (ht : t.WellFormed) (p : Place) : (t.clear p).WellFormed := by
  intro q e hq
  rw [get?_clear] at hq ⊢
  split at hq
  · simp at hq
  · next hkept =>
    rw [if_neg, ht q e hq]
    -- What is left of a cleared place is that place, whose own directory is not below it.
    rintro ⟨hne, hdir⟩
    rw [List.isPrefixOf_iff_prefix] at hkept hdir
    refine hkept ⟨?_, hdir.trans (List.dropLast_prefix q)⟩
    rintro rfl
    exact hne (hdir.eq_of_length_le (by simp)).symm

/-! ## Taking away -/

/-- What is there after is what was there before, or nothing. -/
def Removes (t t' : FileTree) : Prop :=
  ∀ p, t'.get? p = t.get? p ∨ t'.get? p = none

theorem Removes.refl (t : FileTree) : t.Removes t :=
  fun _ => .inl rfl

theorem Removes.trans {t' t'' : FileTree} (h : t.Removes t') (h' : t'.Removes t'') :
    t.Removes t'' := by
  intro p
  rcases h' p with heq | hnone
  · rw [heq]
    exact h p
  · exact .inr hnone

theorem Removes.get? {t' : FileTree} (h : t.Removes t') (he : t'.get? p = some e) :
    t.get? p = some e := by
  rcases h p with heq | hnone
  · rw [← heq, he]
  · simp [hnone] at he

theorem removes_remove (t : FileTree) (hp : p ≠ []) : t.Removes (t.remove p) := by
  intro q
  rw [get?_remove t hp]
  split
  · exact .inr rfl
  · exact .inl rfl

theorem removes_clear (t : FileTree) (p : Place) : t.Removes (t.clear p) := by
  intro q
  rw [get?_clear]
  split
  · exact .inr rfl
  · exact .inl rfl

/-! ## Writing -/

/-- Directories are made where there was nothing, and at the `places` files are written. -/
def Writes (places : List Place) (t t' : FileTree) : Prop :=
  ∀ p, t'.get? p = t.get? p ∨ (t.get? p = none ∧ t'.get? p = some .directory) ∨
    (p ∈ places ∧ t.get? p ≠ some .directory ∧ ∃ content, t'.get? p = some (.file content))

namespace Writes

variable {t t' t'' : FileTree} {places places' : List Place} {p : Place}

theorem refl (t : FileTree) : Writes [] t t :=
  fun _ => .inl rfl

theorem trans (h : Writes places t t') (h' : Writes places' t' t'') :
    Writes (places ++ places') t t'' := by
  intro p
  rcases h' p with heq | ⟨hnone, hdir⟩ | ⟨hp, hdir, content, hfile⟩
  · -- Nothing happens here later on.
    rw [heq]
    rcases h p with h | h | ⟨hp, h⟩
    · exact .inl h
    · exact .inr (.inl h)
    · exact .inr (.inr ⟨List.mem_append_left _ hp, h⟩)
  · -- A directory is made later on, so nothing was here in between, and nothing before.
    rcases h p with h | ⟨-, h⟩ | ⟨-, -, content, h⟩
    · exact .inr (.inl ⟨h ▸ hnone, hdir⟩)
    · simp [hnone] at h
    · simp [hnone] at h
  · -- A file is written later on, so no directory was here in between, and none before.
    refine .inr (.inr ⟨List.mem_append_right _ hp, ?_, content, hfile⟩)
    rcases h p with h | ⟨h, -⟩ | ⟨-, h, -⟩
    · exact h ▸ hdir
    · simp [h]
    · exact h

theorem mono (h : Writes places t t') (hsub : places ⊆ places') : Writes places' t t' := by
  intro p
  rcases h p with h | h | ⟨hp, h⟩
  · exact .inl h
  · exact .inr (.inl h)
  · exact .inr (.inr ⟨hsub hp, h⟩)

theorem directory (h : Writes places t t') (hp : t.get? p = some .directory) :
    t'.get? p = some .directory := by
  rcases h p with h | ⟨h, -⟩ | ⟨-, h, -⟩
  · rw [h, hp]
  · simp [h] at hp
  · exact absurd hp h

theorem get? (h : Writes places t t') {e : Entry} (hp : p ∉ places) (he : t.get? p = some e) :
    t'.get? p = some e := by
  rcases h p with h | ⟨h, -⟩ | ⟨h, -⟩
  · rw [h, he]
  · simp [h] at he
  · exact absurd h hp

theorem file (h : Writes places t t') {content : Bytes} (hp : p ∉ places)
    (he : t'.get? p = some (.file content)) : t.get? p = some (.file content) := by
  rcases h p with h | ⟨-, h⟩ | ⟨h, -⟩
  · rw [← h, he]
  · simp [h] at he
  · exact absurd h hp

end Writes

theorem writes_put_directory (hp : p ≠ []) (h : t.get? p = none) :
    Writes [] t (t.put p .directory) := by
  intro q
  rw [get?_put t hp]
  by_cases hq : q = p
  · rw [if_pos hq, hq]
    exact .inr (.inl ⟨h, rfl⟩)
  · rw [if_neg hq]
    exact .inl rfl

theorem writes_put_file (hp : p ≠ []) (h : t.get? p ≠ some .directory) (content : Bytes) :
    Writes [p] t (t.put p (.file content)) := by
  intro q
  rw [get?_put t hp]
  by_cases hq : q = p
  · rw [if_pos hq, hq]
    exact .inr (.inr ⟨List.mem_singleton_self p, h, content, rfl⟩)
  · rw [if_neg hq]
    exact .inl rfl

end FileTree

end TypedStyle
