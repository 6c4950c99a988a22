import Mathlib.Data.List.Forall2
import Mathlib.Data.List.Induction
import Mathlib.Logic.Relation
import TypedStyle.Project
import TypedStyle.Proofs.PathParts

/-!
# The entries of a project

The entries to work on are named one by one, and a file that is named more than once is worked on
once. Which names are one file is decided by the components of their paths.
-/

namespace TypedStyle

namespace Path

variable {p : Path}

/-! ## Spellings of a path -/

/-- One change to the text of a path that does not count. -/
inductive Tidies : String → String → Prop
  | slashes (front rest : String) : Tidies (front ++ "//" ++ rest) (front ++ "/" ++ rest)
  /-- A dot between two slashes is taken out. -/
  | dot (front rest : String) : Tidies (front ++ "/./" ++ rest) (front ++ "/" ++ rest)
  /-- A dot behind the last slash is taken out. -/
  | lastDot (front : String) : Tidies (front ++ "/.") (front ++ "/")
  | lastSlash (front : String) (h : front ≠ "") : Tidies (front ++ "/") front

/-- Two spellings of one path. -/
def Alike (p q : Path) : Prop :=
  Relation.EqvGen Tidies p.text q.text

theorem segments_ne_nil (p : Path) : p.segments ≠ [] := fun hnil =>
  split_ne_nil _ (List.map_eq_nil_iff.1 hnil)

theorem steps_slash (front rest : String) :
    steps ⟨front ++ "/" ++ rest⟩ = steps ⟨front⟩ ++ steps ⟨rest⟩ := by
  rw [steps, segments_slash, List.filter_append, steps, steps]

/-- What a path starts with is decided before its first slash, or by it. -/
theorem start_slash (front rest : String) :
    start ⟨front ++ "/" ++ rest⟩ = if front = "" then [.root] else start ⟨front⟩ := by
  by_cases hempty : front = ""
  · have htext : front ++ "/" ++ rest = "/" ++ rest := by rw [hempty, String.empty_append]
    rw [if_pos hempty, start, isAbsolute_of_text htext, if_pos rfl]
  · rw [if_neg hempty]
    have hne : front.toList ≠ [] := fun hnil => hempty (String.toList_eq_nil_iff.1 hnil)
    have habsolute : isAbsolute ⟨front ++ "/" ++ rest⟩ = isAbsolute ⟨front⟩ := by
      simp [isAbsolute, List.head?_append, List.head?_eq_some_head hne]
    have hhead : (segments ⟨front ++ "/" ++ rest⟩).head? = (segments ⟨front⟩).head? := by
      rw [segments_slash, List.head?_append, List.head?_eq_some_head (segments_ne_nil _),
        Option.some_or]
    rw [start, start, habsolute, hhead]

theorem slashes_eq (front rest : String) :
    front ++ "//" ++ rest = front ++ "/" ++ ("" ++ "/" ++ rest) :=
  String.toList_inj.1 (by simp)

theorem dot_eq (front rest : String) :
    front ++ "/./" ++ rest = front ++ "/" ++ ("." ++ "/" ++ rest) :=
  String.toList_inj.1 (by simp)

theorem lastDot_eq (front : String) : front ++ "/." = front ++ "/" ++ "." :=
  String.toList_inj.1 (by simp)

theorem Tidies.same {text text' : String} (h : Tidies text text') :
    start ⟨text⟩ = start ⟨text'⟩ ∧ steps ⟨text⟩ = steps ⟨text'⟩ := by
  -- What is taken out leads nowhere.
  have hnothing : steps ⟨""⟩ = [] := rfl
  have hdot : steps ⟨"."⟩ = [] := rfl
  have hend : ∀ front, start ⟨front ++ "/"⟩ = (if front = "" then [.root] else start ⟨front⟩) ∧
      steps ⟨front ++ "/"⟩ = steps ⟨front⟩ := by
    intro front
    have hstart := start_slash front ""
    have hsteps := steps_slash front ""
    rw [String.append_empty] at hstart hsteps
    exact ⟨hstart, by rw [hsteps, hnothing, List.append_nil]⟩
  cases h with
  | slashes front rest =>
    rw [slashes_eq, start_slash, start_slash, steps_slash, steps_slash, steps_slash, hnothing]
    exact ⟨rfl, rfl⟩
  | dot front rest =>
    rw [dot_eq, start_slash, start_slash, steps_slash, steps_slash, steps_slash, hdot]
    exact ⟨rfl, rfl⟩
  | lastDot front =>
    rw [lastDot_eq, (hend front).1, (hend front).2, start_slash, steps_slash, hdot, List.append_nil]
    exact ⟨rfl, rfl⟩
  | lastSlash _ hne =>
    rw [(hend _).1, (hend _).2, if_neg hne]
    exact ⟨rfl, rfl⟩

theorem text_eq_intercalate (p : Path) : p.text = "/".intercalate p.segments := by
  have hsegments := segments_intercalate p.segments_ne_nil fun _ hs => no_slash_of_mem_segments hs
  exact congrArg Path.text (eq_of_segments hsegments).symm

theorem intercalate_front (front piece : String) (pieces : List String) :
    "/".intercalate ((front ++ "/" ++ piece) :: pieces) =
      front ++ "/" ++ "/".intercalate (piece :: pieces) := by
  cases pieces with
  | nil => rfl
  | cons next rest => simp only [intercalate_cons_cons, String.append_assoc]

theorem tidies_intercalate_cons {first : String} (h : first ≠ "") (pieces : List String) :
    Relation.EqvGen Tidies (first ++ "/" ++ "/".intercalate pieces)
      ("/".intercalate (first :: pieces)) := by
  cases pieces with
  | nil =>
    rw [show "/".intercalate [] = "" from rfl, String.append_empty]
    exact .rel _ _ (.lastSlash first h)
  | cons next rest =>
    rw [intercalate_cons_cons]
    exact .refl _

/-- The pieces behind a slash that lead nowhere can be taken out. -/
theorem tidies_filter (front : String) (pieces : List String) :
    Relation.EqvGen Tidies (front ++ "/" ++ "/".intercalate pieces)
      (front ++ "/" ++ "/".intercalate (pieces.filter (!isIdle ·))) := by
  induction pieces generalizing front with
  | nil => exact .refl _
  | cons piece pieces ih =>
    by_cases hidle : isIdle piece = true
    · rw [List.filter_cons_of_neg (by simp [hidle])]
      refine .trans _ _ _ ?_ (ih front)
      have hpiece : piece = "" ∨ piece = "." := by simpa [isIdle] using hidle
      cases pieces with
      | nil =>
        rcases hpiece with rfl | rfl
        · exact .refl _
        · have hdot : Tidies (front ++ "/" ++ ".") (front ++ "/" ++ "") := by
            rw [← lastDot_eq, String.append_empty]
            exact .lastDot front
          exact .rel _ _ hdot
      | cons next rest =>
        rw [intercalate_cons_cons]
        rcases hpiece with rfl | rfl
        · rw [← slashes_eq]
          exact .rel _ _ (.slashes ..)
        · rw [← dot_eq]
          exact .rel _ _ (.dot ..)
    · rw [List.filter_cons_of_pos (by simpa using hidle)]
      cases pieces with
      | nil => exact .refl _
      | cons next rest =>
        have hne : front ++ "/" ++ piece ≠ "" := by
          intro hempty
          have hlength := congrArg String.length hempty
          simp at hlength
        -- The piece stays, and what follows is behind the slash after it.
        rw [intercalate_cons_cons, ← String.append_assoc, ← String.append_assoc]
        refine .trans _ _ _ (ih (front ++ "/" ++ piece)) ?_
        rw [← intercalate_front]
        exact tidies_intercalate_cons hne _

theorem tidies_filter_tail {first : String} (h : first ≠ "") (pieces : List String) :
    Relation.EqvGen Tidies ("/".intercalate (first :: pieces))
      ("/".intercalate (first :: pieces.filter (!isIdle ·))) := by
  have hstart := tidies_intercalate_cons h pieces
  have hend := tidies_intercalate_cons h (pieces.filter (!isIdle ·))
  exact .trans _ _ _ (.symm _ _ hstart) (.trans _ _ _ (tidies_filter first pieces) hend)

theorem text_of_isAbsolute (h : p.isAbsolute = true) :
    p.text = "" ++ "/" ++ "/".intercalate p.segments.tail := by
  obtain ⟨rest, hrest⟩ := List.head?_eq_some_iff.1 (beq_iff_eq.1 h)
  have htext : p.text = "" ++ "/" ++ String.ofList rest := String.toList_inj.1 (by simp [hrest])
  have hsegments : p.segments = "" :: segments ⟨String.ofList rest⟩ := by
    rw [show p = ⟨p.text⟩ from rfl, htext, segments_slash]
    rfl
  rw [hsegments, List.tail_cons, ← text_eq_intercalate, htext]

/-- Every path can be brought into a form that is decided by its start and its steps. -/
theorem tidies_build (p : Path) :
    Relation.EqvGen Tidies p.text (build p.leadAndBody.1 p.steps).text := by
  have hbody := p.filter_body
  by_cases habsolute : p.isAbsolute = true
  · rw [leadAndBody, if_pos habsolute] at hbody ⊢
    have hbuild : (build .absolute p.steps).text = "" ++ "/" ++ "/".intercalate p.steps := by
      rw [String.empty_append]
      rfl
    rw [text_of_isAbsolute habsolute, hbuild, ← hbody]
    exact tidies_filter "" _
  · rw [leadAndBody, if_neg habsolute] at hbody ⊢
    by_cases hdot : p.segments.head? = some "."
    · rw [if_pos hdot] at hbody ⊢
      obtain ⟨rest, hrest⟩ := List.head?_eq_some_iff.1 hdot
      have hbuild : (build .dot p.steps).text = "/".intercalate ("." :: p.steps) := by
        cases p.steps with
        | nil => rfl
        | cons next rest =>
          rw [intercalate_cons_cons]
          rfl
      rw [p.text_eq_intercalate, hbuild, ← hbody, hrest]
      exact tidies_filter_tail (by decide) rest
    · rw [if_neg hdot] at hbody ⊢
      by_cases hempty : p.text = ""
      · rw [hempty, (text_eq_empty_iff.1 hempty).2]
        exact .refl _
      · obtain ⟨first, rest, hsegments⟩ := List.exists_cons_of_ne_nil p.segments_ne_nil
        -- Only an empty path and an absolute one start with an empty piece.
        have hfirst : first ≠ "" := by
          rintro rfl
          exact hempty (text_of_segments_head (by simpa using habsolute) (by rw [hsegments]; rfl))
        have hidle : isIdle first = false := by
          have hne : first ≠ "." := by simpa [hsegments] using hdot
          simp [isIdle, hfirst, hne]
        have hsteps : p.steps = first :: rest.filter (!isIdle ·) := by
          rw [steps, hsegments, List.filter_cons_of_pos (by simp [hidle])]
        rw [p.text_eq_intercalate, hsteps, hsegments]
        exact tidies_filter_tail hfirst rest

def Lead.components : Lead → List Component
  | absolute => [.root]
  | dot => [.here]
  | plain => []

theorem start_eq_lead (p : Path) : p.start = p.leadAndBody.1.components := by
  unfold start leadAndBody
  split
  · rfl
  · split <;> rfl

theorem lead_eq_of_start {q : Path} (h : p.start = q.start) :
    p.leadAndBody.1 = q.leadAndBody.1 := by
  rw [start_eq_lead, start_eq_lead] at h
  cases hp : p.leadAndBody.1 <;> cases hq : q.leadAndBody.1 <;>
    simp [hp, hq, Lead.components] at h ⊢

/-- Paths have the same components exactly if they are spellings of one path. -/
theorem components_eq_iff {q : Path} : p.components = q.components ↔ p.Alike q := by
  have hsame : p.components = q.components ↔ p.start = q.start ∧ p.steps = q.steps := by
    rw [← same_iff, same, beq_iff_eq]
  rw [hsame]
  constructor
  · rintro ⟨hstart, hsteps⟩
    have hp := tidies_build p
    rw [lead_eq_of_start hstart, hsteps] at hp
    exact .trans _ _ _ hp (.symm _ _ (tidies_build q))
  · intro h
    have hagree : ∀ {text text' : String}, Relation.EqvGen Tidies text text' →
        start ⟨text⟩ = start ⟨text'⟩ ∧ steps ⟨text⟩ = steps ⟨text'⟩ := by
      intro text text' h
      induction h with
      | rel _ _ h => exact h.same
      | refl _ => exact ⟨rfl, rfl⟩
      | symm _ _ _ ih => exact ⟨ih.1.symm, ih.2.symm⟩
      | trans _ _ _ _ _ ih ih' => exact ⟨ih.1.trans ih'.1, ih.2.trans ih'.2⟩
    exact hagree h

/-- From a directory a path is seen behind it, without a dot in front. -/
theorem components_join (dir : Path) (hp : p.isAbsolute = false) :
    (dir.join p).components =
      if dir.text = "" then p.components else dir.components ++ p.components.filter (· ≠ .here) := by
  have hsteps : p.components.filter (· ≠ .here) = p.steps.map component := by
    have hstart : p.start.filter (· ≠ .here) = [] := by
      rw [start, hp]
      by_cases hdot : p.segments.head? = some "." <;> simp [hdot]
    have hnames : ∀ s, component s ≠ .here := by
      intro s
      unfold component
      split <;> simp
    rw [components_eq, List.filter_append, hstart, List.nil_append, List.filter_eq_self]
    exact List.forall_mem_map.2 fun s _ => decide_eq_true (hnames s)
  rw [components_eq (dir.join p), start_join dir hp, steps_join dir hp, List.map_append]
  by_cases hempty : dir.text = ""
  · rw [if_pos hempty, if_pos hempty, (text_eq_empty_iff.1 hempty).2, components_eq]
    rfl
  · rw [if_neg hempty, if_neg hempty, hsteps, components_eq, List.append_assoc]

end Path

namespace Project

variable {paths : List Path}

/-! ## Paths that are listed once -/

/-- One more path is taken, unless one before it is the same. -/
theorem distinct_concat (paths : List Path) (path : Path) :
    distinct (paths ++ [path]) =
      if paths.any (·.same path) then distinct paths else distinct paths ++ [path] := by
  induction paths with
  | nil => rfl
  | cons first rest ih =>
    rw [List.cons_append, distinct, ih, distinct, List.any_cons]
    by_cases hrest : rest.any (·.same path) = true
    · simp [hrest]
    · by_cases hfirst : first.same path = true <;> simp [hrest, hfirst]

/-- The path at a position has other components than those before it. -/
def IsFirst (paths : List Path) (i : Nat) : Prop :=
  ∃ path, paths[i]? = some path ∧
    ∀ j other, j < i → paths[j]? = some other → other.components ≠ path.components

theorem IsFirst.lt {i : Nat} (h : IsFirst paths i) : i < paths.length := by
  obtain ⟨path, hpath, -⟩ := h
  exact (List.getElem?_eq_some_iff.1 hpath).1

theorem any_same_eq_false_iff {path : Path} :
    paths.any (·.same path) = false ↔
      ∀ j other, j < paths.length → paths[j]? = some other → other.components ≠ path.components := by
  simp only [List.any_eq_false, Path.same, beq_iff_eq]
  constructor
  · intro h j other _ hother
    exact h other (List.mem_of_getElem? hother)
  · intro h other hother
    obtain ⟨j, hj⟩ := List.mem_iff_getElem?.1 hother
    exact h j other (List.getElem?_eq_some_iff.1 hj).1 hj

theorem isFirst_concat {path : Path} {i : Nat} :
    IsFirst (paths ++ [path]) i ↔
      IsFirst paths i ∨ (i = paths.length ∧ paths.any (·.same path) = false) := by
  have hbefore : ∀ {j}, j < paths.length → (paths ++ [path])[j]? = paths[j]? := fun hj =>
    List.getElem?_append_left hj
  rcases Nat.lt_trichotomy i paths.length with hlt | rfl | hgt
  · have hne : i ≠ paths.length := by omega
    simp only [hne, false_and, or_false, IsFirst, hbefore hlt]
    refine exists_congr fun path => and_congr_right fun _ => ?_
    refine forall_congr' fun j => forall_congr' fun other => forall_congr' fun hj => ?_
    rw [hbefore (Nat.lt_trans hj hlt)]
  · have hnot : ¬IsFirst paths paths.length := fun h => absurd h.lt (by omega)
    rw [or_iff_right hnot, any_same_eq_false_iff]
    simp only [true_and, IsFirst, List.getElem?_concat_length, Option.some_inj, exists_eq_left']
    refine forall_congr' fun j => forall_congr' fun other => forall_congr' fun hj => ?_
    rw [hbefore hj]
  · have hnot : ¬IsFirst paths i := fun h => absurd h.lt (by omega)
    have hnot' : ¬IsFirst (paths ++ [path]) i := by
      intro h
      have hlt := h.lt
      rw [List.length_append, List.length_singleton] at hlt
      omega
    have hne : i ≠ paths.length := by omega
    simp [hnot, hnot', hne]

theorem exists_picks (paths : List Path) :
    ∃ picks : List Nat, picks.Pairwise (· < ·) ∧ (∀ i, i ∈ picks ↔ IsFirst paths i) ∧
      List.Forall₂ (fun i path => paths[i]? = some path) picks (distinct paths) := by
  induction paths using List.reverseRecOn with
  | nil => exact ⟨[], .nil, by simp [IsFirst], .nil⟩
  | append_singleton paths path ih =>
    obtain ⟨picks, hsorted, hmem, hlisted⟩ := ih
    have hlisted' : List.Forall₂ (fun i listed => (paths ++ [path])[i]? = some listed) picks
        (distinct paths) := by
      refine hlisted.imp fun i listed hi => ?_
      rw [List.getElem?_append_left (List.getElem?_eq_some_iff.1 hi).1, hi]
    rw [distinct_concat]
    cases hsame : paths.any (·.same path) with
    | true => exact ⟨picks, hsorted, fun i => by simp [isFirst_concat, hmem, hsame], hlisted'⟩
    | false =>
      refine ⟨picks ++ [paths.length], ?_, fun i => ?_, ?_⟩
      · refine List.pairwise_append.2 ⟨hsorted, List.pairwise_singleton .., ?_⟩
        intro i hi j hj
        rw [List.mem_singleton.1 hj]
        exact ((hmem i).1 hi).lt
      · simp [isFirst_concat, hmem, hsame]
      · exact List.rel_append hlisted' (.cons (by simp) .nil)

/-- Paths are listed without repetition: no two have the same components, each path has one with its
components, and those are listed that come first, in their order and as they are spelled there. -/
structure Lists (paths listed : List Path) : Prop where
  apart : listed.Pairwise fun p q => p.components ≠ q.components
  complete : ∀ path ∈ paths, ∃ p ∈ listed, p.components = path.components
  ordered : ∃ picks : List Nat, picks.Pairwise (· < ·) ∧ (∀ i, i ∈ picks ↔ IsFirst paths i) ∧
    List.Forall₂ (fun i path => paths[i]? = some path) picks listed

theorem lists_distinct (paths : List Path) : Lists paths (distinct paths) where
  apart := by
    induction paths with
    | nil => exact .nil
    | cons first rest ih =>
      refine List.pairwise_cons.2 ⟨fun path hpath => ?_, ih.sublist List.filter_sublist⟩
      simpa [Path.same] using (List.mem_filter.1 hpath).2
  complete := by
    induction paths with
    | nil => simp
    | cons first rest ih =>
      intro path hpath
      by_cases hfirst : first.components = path.components
      · exact ⟨first, List.mem_cons_self, hfirst⟩
      · have hrest : path ∈ rest := by
          refine (List.mem_cons.1 hpath).resolve_left ?_
          rintro rfl
          exact hfirst rfl
        obtain ⟨p, hp, hcomponents⟩ := ih path hrest
        have hother : first.same p = false := by simpa [Path.same, hcomponents] using hfirst
        refine ⟨p, List.mem_cons_of_mem _ (List.mem_filter.2 ⟨hp, ?_⟩), hcomponents⟩
        rw [hother]
        rfl
  ordered := exists_picks paths

/-! ## Entries -/

/-- The names of the entries to work on: the one that is asked for alone, or else those of the
manifest, its first entry before the further ones. -/
inductive Requested : Option String → Option Manifest → List String → Prop
  | one (name : String) (manifest : Option Manifest) : Requested (some name) manifest [name]
  | all (m : Manifest) : Requested none (some m) (m.entry.toList ++ m.entries)

/-- Where a name leads: an absolute one to itself, any other from the directory of the project. -/
def located (base : Path) (name : String) : Path :=
  if Path.isAbsolute ⟨name⟩ then ⟨name⟩ else base.join ⟨name⟩

theorem located_eq_join (base : Path) (name : String) : located base name = base.join ⟨name⟩ := by
  unfold located
  split
  · next habsolute => rw [Path.join, if_pos habsolute]
  · rfl

/-- Neither an entry nor a manifest that names one. -/
def Unnamed (asked : Option String) (manifest : Option Manifest) : Prop :=
  asked = none ∧ (manifest = none ∨ ∃ m, manifest = some m ∧ m.entry = none ∧ m.entries = [])

theorem entryNames_eq_nil_iff {asked : Option String} {manifest : Option Manifest} :
    entryNames asked manifest = [] ↔ Unnamed asked manifest := by
  cases asked with
  | some name => simp [entryNames, Unnamed]
  | none =>
    cases manifest with
    | none => simp [entryNames, Unnamed]
    | some m => simp [entryNames, Unnamed, Manifest.entryNames]

theorem requested_entryNames {asked : Option String} {manifest : Option Manifest}
    (h : entryNames asked manifest ≠ []) : Requested asked manifest (entryNames asked manifest) := by
  cases asked with
  | some name => exact .one name manifest
  | none =>
    cases manifest with
    | none => exact absurd rfl h
    | some m => exact .all m

/-- There are entries unless none is named. They are listed without repetition, in the order and
spelling in which they are first named, where names are one entry if they lead to paths with the same
components: to spellings of one path. -/
theorem entries_exact (asked : Option String) (manifest : Option Manifest) (base : Path) :
    (entries asked manifest base = .error .missingEntry ↔ Unnamed asked manifest) ∧
      (¬Unnamed asked manifest → ∃ names paths, Requested asked manifest names ∧
        entries asked manifest base = .ok paths ∧ Lists (names.map (located base)) paths) ∧
      (∀ p q : Path, p.components = q.components ↔ p.Alike q) ∧
      ∀ name, Path.isAbsolute ⟨name⟩ = false → (located base name).components =
        if base.text = "" then Path.components ⟨name⟩
        else base.components ++ (Path.components ⟨name⟩).filter (· ≠ .here) := by
  have hlocated : (fun name => base.join ⟨name⟩) = located base :=
    funext fun name => (located_eq_join base name).symm
  rw [← entryNames_eq_nil_iff]
  refine ⟨?_, fun hnamed => ?_, fun p q => Path.components_eq_iff, fun name hname => ?_⟩
  · unfold entries
    cases entryNames asked manifest <;> simp
  · refine ⟨_, distinct ((entryNames asked manifest).map (located base)),
      requested_entryNames hnamed, ?_, lists_distinct _⟩
    rw [entries, hlocated]
    obtain ⟨name, rest, hnames⟩ := List.exists_cons_of_ne_nil hnamed
    rw [hnames]
  · rw [located_eq_join, Path.components_join base hname]

/-- A manifest that names two files in several ways, and one by a way around. -/
def repetitive : Manifest where
  entry := some "main.icss"
  entries := ["./main.icss", "a//b.icss", "/p/main.icss", "a/./b.icss/", "../p/main.icss"]

/-- The names that are requested by this manifest. -/
def repeated : List String :=
  ["main.icss", "./main.icss", "a//b.icss", "/p/main.icss", "a/./b.icss/", "../p/main.icss"]

/-- From the directory `/p` the names lead to three paths, each listed as it is first spelled. The way
around is a path of its own, and from an empty directory a dot in front makes another path. -/
theorem entries_exact_repetitive :
    ¬Unnamed none (some repetitive) ∧
      entries none (some repetitive) ⟨"/p"⟩ =
        .ok [⟨"/p/main.icss"⟩, ⟨"/p/a//b.icss"⟩, ⟨"/p/../p/main.icss"⟩] ∧
      Lists (repeated.map (located ⟨"/p"⟩))
        [⟨"/p/main.icss"⟩, ⟨"/p/a//b.icss"⟩, ⟨"/p/../p/main.icss"⟩] ∧
      Path.Alike ⟨"/p/a/./b.icss/"⟩ ⟨"/p/a//b.icss"⟩ ∧
      ¬Path.Alike ⟨"/p/../p/main.icss"⟩ ⟨"/p/main.icss"⟩ ∧
      (located ⟨""⟩ "./main.icss").components = [.here, .name "main.icss"] ∧
      entries none (some { entry := some "main.icss", entries := ["./main.icss"] }) ⟨""⟩ =
        .ok [⟨"main.icss"⟩, ⟨"./main.icss"⟩] := by
  have hnamed : ¬Unnamed none (some repetitive) := by
    rw [← entryNames_eq_nil_iff]
    decide
  have hentries : entries none (some repetitive) ⟨"/p"⟩ =
      .ok [⟨"/p/main.icss"⟩, ⟨"/p/a//b.icss"⟩, ⟨"/p/../p/main.icss"⟩] := by decide +kernel
  obtain ⟨-, hlists, halike, -⟩ := entries_exact none (some repetitive) ⟨"/p"⟩
  obtain ⟨-, -, -, hjoin⟩ := entries_exact none (some repetitive) ⟨""⟩
  obtain ⟨names, paths, hnames, hpaths, hlists⟩ := hlists hnamed
  obtain rfl := Except.ok.inj (hentries.symm.trans hpaths)
  cases hnames
  refine ⟨hnamed, hentries, hlists, (halike _ _).1 (by decide +kernel), fun h => ?_, ?_,
    by decide +kernel⟩
  · exact absurd ((halike _ _).2 h) (by decide +kernel)
  · rw [hjoin "./main.icss" (by decide +kernel), if_pos rfl]
    decide +kernel

end Project

end TypedStyle
