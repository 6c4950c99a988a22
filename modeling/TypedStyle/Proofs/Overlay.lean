import TypedStyle.Proofs.DiskLocality

/-!
# Files over a disk

`Disk.Overlay` says that one disk is another with some files written over it, in whatever order. Off
the way of a path such files do not change what is done on it, so that they can be kept apart from
the directories that are made.

A path that only goes down from a directory that is there (`Disk.Descends`) leads to a file if there
is one at its place: the directories around the file are there as well. Of such a path, two disks
with the same file at its place tell the same (`Disk.Adds.read_congr`), also if other directories
were made in one of them.
-/

namespace TypedStyle

namespace Path

theorem front_join (dir : Path) {p : Path} (hp : p.isAbsolute = false) :
    (dir.join p).front = dir.front ++ p.front := by
  rw [join_eq_front dir hp]
  by_cases hempty : p.text = ""
  · -- The front of a directory is empty or ends in a slash.
    have hfront : front ⟨dir.front⟩ = dir.front := by
      rw [front.eq_1 ⟨dir.front⟩, if_pos]
      unfold front
      split
      · assumption
      · simp
    have hp' : p.front = "" := by simp [front, hempty]
    rw [hempty, String.append_empty, hfront, hp', String.append_empty]
  · have hne : p.text.toList ≠ [] := fun hnil => hempty (String.toList_eq_nil_iff.1 hnil)
    have hlast : (dir.front ++ p.text).toList.getLast? = p.text.toList.getLast? := by
      rw [String.toList_append, List.getLast?_append, List.getLast?_eq_some_getLast hne,
        Option.some_or]
    have hfirst : (dir.front ++ p.text).isEmpty = false := by simp [hempty]
    have hfirst' : p.text.isEmpty = false := by simpa using hempty
    rw [front.eq_1 ⟨dir.front ++ p.text⟩, front.eq_1 p, hlast, hfirst, hfirst', Bool.false_or]
    split
    · rfl
    · rw [String.append_assoc]

theorem join_assoc (a b c : Path) : (a.join b).join c = a.join (b.join c) := by
  cases hc : c.isAbsolute with
  | true => simp [join, hc]
  | false =>
    cases hb : b.isAbsolute with
    | true =>
      have hbc := isAbsolute_join hb c
      have hab : a.join b = b := by simp [join, hb]
      have habc : a.join (b.join c) = b.join c := by
        rw [join.eq_1 a (b.join c), if_pos hbc]
      rw [hab, habc]
    | false =>
      have hbc : (b.join c).isAbsolute = false := by rw [isAbsolute_join_of_relative b hc, hb]
      rw [join_eq_front _ hc, front_join a hb, join_eq_front a hbc, join_eq_front b hc,
        String.append_assoc]

end Path

theorem Standpoint.foldl_enter_down {segments : List String} (hup : ".." ∉ segments) (p : Place) :
    segments.foldl enter { place := p } =
      { place := p ++ segments.filter (!Path.isIdle ·) } := by
  induction segments generalizing p with
  | nil => simp
  | cons segment rest ih =>
    rw [List.mem_cons, not_or] at hup
    by_cases hidle : Path.isIdle segment = true
    · rw [List.foldl_cons, enter_of_isIdle hidle, ih hup.2,
        List.filter_cons_of_neg (by simp [hidle])]
    · have henter : enter { place := p } segment = { place := p ++ [segment] } := by
        simp [enter, hidle, Ne.symm hup.1]
      rw [List.foldl_cons, henter, ih hup.2, List.filter_cons_of_pos (by simpa using hidle),
        List.append_assoc]
      rfl

namespace Disk

variable {d d' : Disk} {path : Path} {places : List Place}

/-! ## Paths that go down -/

/-- A path that only goes down from a directory that is there. -/
def Descends (d : Disk) (path : Path) : Prop :=
  ∃ dir p, d.Stands dir ∧ path = dir.join p ∧ ".." ∉ p.segments

theorem Proper.stands_empty (hd : d.Proper) : d.Stands ⟨""⟩ := by
  refine ⟨rfl, ?_⟩
  obtain ⟨hlost, hget⟩ := hd.origin ⟨""⟩
  show Standpoint.entry? (d.origin ⟨""⟩) d.tree = some .directory
  rw [Standpoint.entry?, if_pos hlost, hget]

theorem Proper.descends (hd : d.Proper) (h : ".." ∉ path.segments) : d.Descends path := by
  refine ⟨⟨""⟩, path, hd.stands_empty, ?_, h⟩
  unfold Path.join
  split
  · rfl
  · simp

theorem Descends.join_name (h : d.Descends path) {name : String} (hname : Place.IsName name) :
    d.Descends (path.join ⟨name⟩) := by
  obtain ⟨dir, p, hdir, rfl, hup⟩ := h
  refine ⟨dir, p.join ⟨name⟩, hdir, Path.join_assoc _ _ _, ?_⟩
  obtain ⟨front, hjoin, hfront⟩ :=
    Path.segments_join p (Path.not_isAbsolute_of_no_slash hname.no_slash)
  rw [hjoin, Path.segments_of_no_slash hname.no_slash, List.mem_append, List.mem_singleton]
  rintro (hmem | hmem)
  · rcases hfront with heq | heq
    · exact hup (heq ▸ hmem)
    · exact hup (heq ▸ List.mem_append_left _ hmem)
  · exact hname.ne_up hmem.symm

theorem Adds.stands (h : Adds places d d') (hpath : d.Stands path) : d'.Stands path := by
  refine ⟨?_, ?_⟩
  · rw [h.spot, origin, h.cwd, ← origin]
    exact walk_mono (fun _ => h.writes.directory) hpath.1
  · rw [h.spot]
    exact Standpoint.entry?_mono h.writes.directory hpath.2

theorem Adds.descends (h : Adds places d d') (hpath : d.Descends path) : d'.Descends path := by
  obtain ⟨dir, p, hdir, heq, hup⟩ := hpath
  exact ⟨dir, p, h.stands hdir, heq, hup⟩

theorem Adds.proper (h : Adds places d d') (hd : d.Proper) :
    d'.Proper where
  wellFormed := h.wellFormed hd.wellFormed
  lost := by rw [h.cwd]; exact hd.lost
  directory := by rw [h.cwd]; exact h.writes.directory hd.directory
  isName := by rw [h.cwd]; exact hd.isName

theorem get?_ne_directory_of_write {content : Bytes} (h : d.write path content = .ok d') :
    d.tree.get? (d.spot path).place ≠ some .directory := by
  obtain ⟨directory, name, htarget, -, hfile, -⟩ := write_eq_ok h
  rwa [(spot_of_target htarget).1]

theorem stands_of_makeDirectories (hd : d.Proper) (h : (d.makeDirectories path).2 = none) :
    (d.makeDirectories path).1.Stands path := by
  by_cases htext : path.text = ""
  · obtain ⟨text⟩ := path
    obtain rfl : text = "" := htext
    exact (adds_makeDirectories d _).stands hd.stands_empty
  · have hthere := isDirectory_of_makeNested htext (Prod.ext rfl h)
    exact stands_of_entry (isDirectory_iff.1 hthere)

theorem Stands.directory_of_onWay (hd : d.Proper) (h : d.Stands path) {p : Place}
    (hp : d.OnWay path p) : d.tree.get? p = some .directory := by
  obtain ⟨front, rest, hsteps, rfl⟩ := hp
  have hwalk := h.1
  rw [hsteps] at hwalk
  obtain ⟨s, hfront, hs⟩ := walk_front hwalk h.2
  obtain ⟨rfl, -⟩ := walk_eq_ok hfront
  rwa [Standpoint.entry?, if_pos (Proper.lost_foldl front (hd.origin path).1)] at hs

namespace Descends

variable {d : Disk} {path : Path}

theorem exists_start (hd : d.Proper) (h : d.Descends path) :
    ∃ start segments, ".." ∉ segments ∧
      d.spot path = { place := start ++ segments.filter (!Path.isIdle ·) } ∧
      (∀ p, d.OnWay path p → d.tree.get? p = some .directory ∨
        ∃ front, front <+: segments.filter (!Path.isIdle ·) ∧ p = start ++ front) ∧
      ∀ places d', Adds places d d' →
        walk d'.tree (d'.origin path) path.segments = walk d'.tree { place := start } segments := by
  obtain ⟨dir, q, hdir, rfl, hup⟩ := h
  have hsteps : ".." ∉ q.steps := fun hmem => hup (List.mem_filter.1 hmem).1
  have hdown : ∀ {front rest}, q.steps = front ++ rest → ∀ p : Place,
      front.foldl Standpoint.enter { place := p } = { place := p ++ front } := by
    intro front rest heq p
    have hidle : front.filter (!Path.isIdle ·) = front := by
      refine List.filter_eq_self.2 fun s hs => ?_
      have hmem : s ∈ q.steps := heq ▸ List.mem_append_left _ hs
      exact (List.mem_filter.1 hmem).2
    rw [Standpoint.foldl_enter_down, hidle]
    exact fun hmem => hsteps (heq ▸ List.mem_append_left _ hmem)
  cases hq : q.isAbsolute with
  | true =>
    have hjoin : dir.join q = q := by simp [Path.join, hq]
    rw [hjoin]
    have horigin : ∀ d' : Disk, d'.origin q = { place := [] } := fun d' => by
      rw [origin, if_pos hq]
      rfl
    refine ⟨[], q.segments, hup, ?_, ?_, fun places d' _ => by rw [horigin]⟩
    · rw [spot, horigin, Standpoint.foldl_enter_down hup]
    · rintro p ⟨front, rest, heq, rfl⟩
      rw [horigin, hdown heq]
      exact .inr ⟨front, ⟨rest, heq.symm⟩, rfl⟩
  | false =>
    have hstart : d.spot dir = { place := (d.spot dir).place } := by
      have hlost := hd.lost_spot dir
      generalize d.spot dir = s at hlost
      obtain ⟨place, lost⟩ := s
      exact congrArg (Standpoint.mk place) hlost
    refine ⟨(d.spot dir).place, q.segments, hup, ?_, ?_, ?_⟩
    · rw [spot_join d dir hq, hstart, Standpoint.foldl_enter_down hup]
    · rintro p ⟨front, rest, heq, rfl⟩
      rw [Path.steps_join dir hq] at heq
      rw [origin, Path.isAbsolute_join_of_relative dir hq, ← origin]
      -- One is still on the way to the directory, or goes down from there.
      rcases List.append_eq_append_iff.1 heq with ⟨more, rfl, heq'⟩ | ⟨more, heq', -⟩
      · right
        rw [List.foldl_append, Path.foldl_steps, ← spot, hstart, hdown heq']
        exact ⟨more, ⟨rest, heq'.symm⟩, rfl⟩
      · exact .inl (hdir.directory_of_onWay hd ⟨front, more, heq', rfl⟩)
    · intro places d' hadds
      rw [walk_join_of_stands (hadds.stands hdir) hq, hadds.spot, ← hstart]

theorem onWay (hd : d.Proper) (h : d.Descends path) {p : Place} (hp : d.OnWay path p) :
    d.tree.get? p = some .directory ∨ p <+: (d.spot path).place := by
  obtain ⟨start, segments, -, hspot, hway, -⟩ := h.exists_start hd
  refine (hway p hp).imp_right ?_
  rintro ⟨front, hfront, rfl⟩
  rw [hspot]
  exact (List.prefix_append_right_inj start).2 hfront

theorem makeDirectories (hd : d.Proper) (h : d.Descends path) (p : Place) :
    (d.makeDirectories path).1.tree.get? p = d.tree.get? p ∨
      d.tree.get? p = none ∧ (d.makeDirectories path).1.tree.get? p = some .directory ∧
        p <+: (d.spot path).place := by
  rcases (adds_makeDirectories d path).writes p with heq | ⟨hnone, hdir⟩ | ⟨hmem, -⟩
  · exact .inl heq
  · right
    refine ⟨hnone, hdir, ?_⟩
    have hway : d.OnWay path p := by
      apply Classical.byContradiction
      intro hoff
      rw [get?_makeDirectories hoff, hnone] at hdir
      simp at hdir
    exact (h.onWay hd hway).resolve_left (by simp [hnone])
  · simp at hmem

end Descends

/-- Pieces that go down lead to what is there, if they do so in another tree. -/
theorem walk_of_walk {t t' : FileTree} (ht : t.WellFormed) {segments : List String}
    (hup : ".." ∉ segments) {p : Place} {r : Standpoint}
    (h : walk t' { place := p } segments = .ok r) {e : Entry} (hr : r.entry? t = some e)
    (hr' : r.entry? t' = some e) : walk t { place := p } segments = .ok r := by
  induction segments generalizing p with
  | nil => exact h
  | cons segment rest ih =>
    have hplace := (walk_eq_ok h).1
    rw [Standpoint.foldl_enter_down hup] at hplace
    rw [walk] at h
    cases hstep : step t' { place := p } segment with
    | error e => simp [hstep] at h
    | ok s =>
      rw [hstep] at h
      obtain ⟨-, hdirectory, -⟩ := step_eq_ok hstep
      -- Here is what the pieces lead to, or a directory around it.
      have hp : Standpoint.entry? { place := p } t = some .directory := by
        cases hnames : (segment :: rest).filter (!Path.isIdle ·) with
        | nil =>
          rw [hnames, List.append_nil] at hplace
          rw [hplace] at hr hr'
          rw [hr, ← hr', hdirectory]
        | cons name names =>
          rw [hplace, hnames] at hr
          exact ht.directory_of_append (List.cons_ne_nil _ _) hr
      have hstep' : step t { place := p } segment = .ok s := by
        rw [← hstep, step, step, hp, hdirectory]
      rw [walk, hstep']
      dsimp only
      obtain ⟨rfl, -, -⟩ := step_eq_ok hstep
      rw [List.mem_cons, not_or] at hup
      have henter : ∃ q : Place, Standpoint.enter { place := p } segment = { place := q } := by
        unfold Standpoint.enter
        split
        · exact ⟨p, rfl⟩
        · rw [if_neg (Ne.symm hup.1)]
          exact ⟨_, rfl⟩
      obtain ⟨q, hq⟩ := henter
      rw [hq] at h ⊢
      exact ih hup.2 h

section

variable {d a o : Disk} {places places' : List Place} (hd : d.Proper) (ha : Adds places d a)
  (ho : Adds places' d o) {path : Path} (hpath : d.Descends path)

include hd ha ho hpath

/-- What a path that goes down leads to on one disk it leads to on another, if it is there. -/
theorem Adds.entry_congr {e : Entry} (h : a.entry path = .ok e)
    (hget : o.tree.get? (d.spot path).place = some e) : o.entry path = .ok e := by
  obtain ⟨start, segments, hup, hspot, -, hwalks⟩ := hpath.exists_start hd
  obtain ⟨hrefusal, hwalk⟩ := walk_of_entry h
  have hthere := entry_eq_ok h
  rw [ha.spot, hspot] at hthere hwalk
  rw [hspot] at hget
  rw [hwalks places a ha] at hwalk
  have hwalk' := walk_of_walk (ho.wellFormed hd.wellFormed) hup hwalk hget hthere
  have hresolve : o.resolve path = .ok { place := start ++ segments.filter (!Path.isIdle ·) } := by
    rw [resolve, hrefusal]
    dsimp only
    rw [hwalks places' o ho, hwalk']
  simp [Disk.entry, hresolve, Standpoint.entry?, hget]

theorem Adds.has_congr (hget : a.tree.get? (d.spot path).place = o.tree.get? (d.spot path).place) :
    a.has path = o.has path := by
  have hlost := hd.lost_spot path
  have hentry : ∀ {x : Disk} {ps : List Place} {e : Entry}, Adds ps d x → x.entry path = .ok e →
      x.tree.get? (d.spot path).place = some e := by
    intro x ps e hx he
    have hthere := entry_eq_ok he
    rwa [hx.spot, Standpoint.entry?, if_pos hlost] at hthere
  rw [Bool.eq_iff_iff, has_iff, has_iff]
  constructor
  · rintro ⟨e, he⟩
    exact ⟨e, ha.entry_congr hd ho hpath he (hget ▸ hentry ha he)⟩
  · rintro ⟨e, he⟩
    exact ⟨e, ho.entry_congr hd ha hpath he (hget ▸ hentry ho he)⟩

/-- A file can be read on two disks if it is at the place of its path on both. -/
theorem Adds.read_congr
    (hfile : ∀ content, a.tree.get? (d.spot path).place = some (.file content) ↔
      o.tree.get? (d.spot path).place = some (.file content)) :
    (a.read path).toOption = (o.read path).toOption := by
  ext content
  rw [toOption_eq_some_iff, toOption_eq_some_iff, read_eq_ok_iff, read_eq_ok_iff]
  constructor
  · intro h
    have hget := (get?_of_read (read_eq_ok_iff.2 h)).2
    rw [ha.spot] at hget
    exact ha.entry_congr hd ho hpath h ((hfile content).1 hget)
  · intro h
    have hget := (get?_of_read (read_eq_ok_iff.2 h)).2
    rw [ho.spot] at hget
    exact ho.entry_congr hd ha hpath h ((hfile content).2 hget)

end

/-! ## Files over a disk -/

/-- The disk `d'` is `d` with files over it. -/
structure Overlay (files : List (Place × Bytes)) (d d' : Disk) : Prop where
  cwd : d'.cwd = d.cwd
  file : ∀ x ∈ files, d'.tree.get? x.1 = some (.file x.2)
  get? : ∀ p, (∀ x ∈ files, x.1 ≠ p) → d'.tree.get? p = d.tree.get? p

namespace Overlay

variable {files files' : List (Place × Bytes)} {d d' d'' : Disk} {path : Path}

theorem refl (d : Disk) : Overlay [] d d :=
  ⟨rfl, by simp, fun _ _ => rfl⟩

theorem congr (h : Overlay files d d') (hfiles : ∀ x, x ∈ files ↔ x ∈ files') :
    Overlay files' d d' :=
  ⟨h.cwd, fun x hx => h.file x ((hfiles x).2 hx),
    fun p hp => h.get? p fun x hx => hp x ((hfiles x).1 hx)⟩

theorem unique (h : Overlay files d d') (h' : Overlay files d d'') (p : Place) :
    d'.tree.get? p = d''.tree.get? p := by
  by_cases hp : ∃ x ∈ files, x.1 = p
  · obtain ⟨x, hx, rfl⟩ := hp
    rw [h.file x hx, h'.file x hx]
  · have hoff : ∀ x ∈ files, x.1 ≠ p := fun x hx heq => hp ⟨x, hx, heq⟩
    rw [h.get? p hoff, h'.get? p hoff]

theorem alike (h : Overlay files d d') {at? : Place → Prop} (hoff : ∀ x ∈ files, ¬at? x.1) :
    Alike at? d d' := by
  refine ⟨h.cwd, fun p hp => h.get? p ?_⟩
  rintro x hx rfl
  exact hoff x hx hp

theorem makeDirectories (h : Overlay files d d') (hoff : ∀ x ∈ files, ¬d.OnWay path x.1) :
    (d'.makeDirectories path).2 = (d.makeDirectories path).2 ∧
      Overlay files (d.makeDirectories path).1 (d'.makeDirectories path).1 := by
  obtain ⟨hstatus, hafter⟩ := (h.alike hoff).makeDirectories
  have hway : d'.OnWay = d.OnWay := onWay_of_cwd h.cwd
  refine ⟨hstatus, hafter.cwd, ?_, ?_⟩
  · intro x hx
    rw [get?_makeDirectories (by rw [hway]; exact hoff x hx), h.file x hx]
  · intro p hp
    by_cases hon : d.OnWay path p
    · exact hafter.get? p hon
    · rw [get?_makeDirectories (by rwa [hway]), get?_makeDirectories hon, h.get? p hp]

theorem write (h : Overlay files d d') (hoff : ∀ x ∈ files, ¬d.OnWay path x.1) (content : Bytes) :
    (∃ e, d.write path content = .error e ∧ d'.write path content = .error e) ∨
      ∃ d₁ d₁', d.write path content = .ok d₁ ∧ d'.write path content = .ok d₁' ∧
        Overlay (files ++ [((d.spot path).place, content)]) d d₁' := by
  have hspot : d'.spot path = d.spot path := by
    rw [spot, spot, origin, origin, h.cwd]
  rcases (h.alike hoff).write_cases (fun _ hp => hp) content with herror | ⟨d₁, d₁', hd, hd'⟩
  · exact .inl herror
  · refine .inr ⟨d₁, d₁', hd, hd', (adds_write hd').cwd.trans h.cwd, ?_, ?_⟩
    · intro x hx
      rw [get?_write hd', hspot]
      rcases List.mem_append.1 hx with hx | hx
      · rw [if_neg, h.file x hx]
        intro heq
        exact hoff x hx (heq ▸ d.onWay_spot path)
      · rw [List.mem_singleton.1 hx, if_pos rfl]
    · intro p hp
      rw [get?_write hd', hspot, if_neg, h.get? p fun x hx => hp x (List.mem_append_left _ hx)]
      exact fun heq => hp _ (List.mem_append_right _ List.mem_cons_self) heq.symm

end Overlay

end Disk

end TypedStyle
