import Mathlib.Data.List.Forall2
import Mathlib.Data.List.Infix
import Mathlib.Data.List.Nodup
import Mathlib.Data.Nat.Find
import TypedStyle.Proofs.Scope

/-!
# Histories of scopes

A scope is what a sequence of actions has made of the empty one. What it answers can be told from
the sequence alone, without the frames: which blocks are still open is a matter of how pushes and
pops match, and what a name means is a matter of who declared it last, and where.
-/

namespace TypedStyle

namespace Scope

variable {α : Type}

/-- What can be done to a scope. -/
inductive Action (α : Type) where
  | push
  /-- Closes the innermost block. -/
  | pop
  | declare (name : String) (value : α)

def Action.isPush : Action α → Bool
  | push => true
  | _ => false

def Action.isPop : Action α → Bool
  | pop => true
  | _ => false

/-- A scope after an action. Closing the frame of the sheet is refused and changes nothing. -/
def act (s : Scope α) : Action α → Scope α
  | .push => s.push
  | .pop => s.pop
  | .declare name value => s.declare name value

/-- Actions, the earliest first. -/
abbrev History (α : Type) : Type := List (Action α)

/-- A scope after some actions. -/
def after (s : Scope α) (h : History α) : Scope α :=
  h.foldl act s

theorem after_concat (s : Scope α) (h : History α) (a : Action α) :
    s.after (h ++ [a]) = (s.after h).act a :=
  List.foldl_concat ..

namespace History

variable {h : History α} {opened : List Nat} {s : Scope α} {i k n : Nat} {name : String} {value : α}
  {frame : Frame α}

/-! ## Blocks that are open -/

/-- How often a block is opened. -/
def pushes (h : History α) : Nat :=
  h.countP Action.isPush

/-- How often a block is to be closed. -/
def pops (h : History α) : Nat :=
  h.countP Action.isPop

/-- At no time have more blocks been closed than opened. -/
def Covered (h : History α) : Prop :=
  ∀ part, part <+: h → pops part ≤ pushes part

instance (h : History α) : Decidable (Covered h) :=
  decidable_of_iff (∀ part ∈ h.inits, pops part ≤ pushes part) <| by
    simp only [List.mem_inits, Covered]

/-- Every block that is opened is closed, and nothing else is. -/
def Balanced (h : History α) : Prop :=
  Covered h ∧ pops h = pushes h

instance (h : History α) : Decidable (Balanced h) :=
  inferInstanceAs (Decidable (_ ∧ _))

/-- What happened after the action at a position. -/
def since (h : History α) (i : Nat) : History α :=
  h.drop (i + 1)

/-- The action at a position opened a block that is still open. -/
def Unmatched (h : History α) (i : Nat) : Prop :=
  h[i]?.any Action.isPush = true ∧ Covered (since h i)

instance (h : History α) (i : Nat) : Decidable (Unmatched h i) :=
  inferInstanceAs (Decidable (_ ∧ _))

theorem pushes_concat (h : History α) (a : Action α) :
    pushes (h ++ [a]) = pushes h + if a.isPush then 1 else 0 := by
  simp [pushes, List.countP_singleton]

theorem pops_concat (h : History α) (a : Action α) :
    pops (h ++ [a]) = pops h + if a.isPop then 1 else 0 := by
  simp [pops, List.countP_singleton]

theorem Covered.pops_le (hcovered : Covered h) : pops h ≤ pushes h :=
  hcovered h List.prefix_rfl

variable {a : Action α}

theorem covered_concat : Covered (h ++ [a]) ↔ Covered h ∧ pops (h ++ [a]) ≤ pushes (h ++ [a]) := by
  constructor
  · intro hcovered
    have hbefore : Covered h := fun part hpart =>
      hcovered part (hpart.trans (List.prefix_append _ _))
    exact ⟨hbefore, hcovered.pops_le⟩
  · rintro ⟨hcovered, hlast⟩ part hpart
    rcases List.prefix_concat_iff.1 hpart with rfl | hpart
    · exact hlast
    · exact hcovered part hpart

theorem Unmatched.lt (hi : Unmatched h i) : i < h.length := by
  obtain ⟨hpush, -⟩ := hi
  by_contra hge
  rw [List.getElem?_eq_none (by omega)] at hpush
  cases hpush

theorem since_concat (hi : i < h.length) (a : Action α) : since (h ++ [a]) i = since h i ++ [a] :=
  List.drop_append_of_le_length hi

/-- A push stays unmatched as long as the blocks opened inside it are more than those closed. -/
theorem unmatched_concat :
    Unmatched (h ++ [a]) i ↔
      (Unmatched h i ∧ pops (since h i ++ [a]) ≤ pushes (since h i ++ [a])) ∨
        (i = h.length ∧ a.isPush = true) := by
  rcases Nat.lt_trichotomy i h.length with hlt | rfl | hgt
  · rw [Unmatched, since_concat hlt, covered_concat, List.getElem?_append_left hlt, Unmatched]
    have hne : i ≠ h.length := by omega
    simp [hne, and_assoc]
  · have hnow : since (h ++ [a]) h.length = [] := by simp [since]
    have hcovered : Covered ([] : History α) := by
      intro part hpart
      simp [List.prefix_nil.1 hpart, pops]
    simp [Unmatched, hnow, hcovered]
  · have hnot : ¬Unmatched h i := fun hi => absurd hi.lt (by omega)
    have hnot' : ¬Unmatched (h ++ [a]) i := by
      intro hi
      have hlt := hi.lt
      rw [List.length_append, List.length_singleton] at hlt
      omega
    have hne : i ≠ h.length := by omega
    simp [hnot, hnot', hne]

/-- The positions where the open blocks were opened, the innermost first. Since a block was opened,
as many more were opened than closed as are open inside it. -/
structure Tracks (h : History α) (opened : List Nat) : Prop where
  mem_iff : ∀ i, i ∈ opened ↔ Unmatched h i
  sorted : opened.Pairwise (· > ·)
  surplus : ∀ i ∈ opened, pushes (since h i) = pops (since h i) + opened.countP (i < ·)

theorem tracks_nil : Tracks ([] : History α) [] where
  mem_iff i := by simp [Unmatched]
  sorted := .nil
  surplus := by simp

theorem Tracks.lt (ht : Tracks h opened) (hi : i ∈ opened) : i < h.length :=
  ((ht.mem_iff i).1 hi).lt

theorem countP_lt_eq_zero {j : Nat} (hj : ∀ i ∈ opened, i < j) : opened.countP (j < ·) = 0 := by
  refine List.countP_eq_zero.2 fun i hi => ?_
  have hlt := hj i hi
  simp only [decide_eq_true_eq]
  omega

theorem Tracks.push (ht : Tracks h opened) :
    Tracks (h ++ [.push]) (h.length :: opened) where
  mem_iff i := by
    rw [unmatched_concat, List.mem_cons, ht.mem_iff, pops_concat, pushes_concat]
    simp only [Action.isPush, Action.isPop, and_true, if_true, Bool.false_eq_true, if_false]
    constructor
    · rintro (rfl | hi)
      · exact .inr rfl
      · have hle := hi.2.pops_le
        exact .inl ⟨hi, by omega⟩
    · rintro (⟨hi, -⟩ | rfl)
      · exact .inr hi
      · exact .inl rfl
  sorted := List.pairwise_cons.2 ⟨fun i hi => ht.lt hi, ht.sorted⟩
  surplus := by
    intro i hi
    rcases List.mem_cons.1 hi with rfl | hi
    · -- Nothing has happened in the new block, and the others are around it.
      have hnow : since (h ++ [Action.push]) h.length = [] := by simp [since]
      rw [hnow, List.countP_cons_of_neg (by simp), countP_lt_eq_zero fun _ => ht.lt]
      rfl
    · have hlt := ht.lt hi
      have hsurplus := ht.surplus i hi
      rw [since_concat hlt, pushes_concat, pops_concat, List.countP_cons_of_pos (by simpa using hlt)]
      simp only [Action.isPush, Action.isPop, if_true, Bool.false_eq_true, if_false]
      omega

theorem Tracks.declare (ht : Tracks h opened) (name : String) (value : α) :
    Tracks (h ++ [.declare name value]) opened where
  mem_iff i := by
    rw [unmatched_concat, ht.mem_iff, pops_concat, pushes_concat]
    simp only [Action.isPush, Action.isPop, Bool.false_eq_true, and_false, or_false, if_false,
      Nat.add_zero]
    exact ⟨fun hi => ⟨hi, hi.2.pops_le⟩, fun hi => hi.1⟩
  sorted := ht.sorted
  surplus := by
    intro i hi
    rw [since_concat (ht.lt hi), pushes_concat, pops_concat]
    simpa [Action.isPush, Action.isPop] using ht.surplus i hi

/-- A pop matches the push of the innermost block. -/
theorem Tracks.pop (ht : Tracks h opened) : Tracks (h ++ [.pop]) opened.tail := by
  cases opened with
  | nil =>
    refine ⟨fun i => ?_, .nil, by simp⟩
    have hnot : ¬Unmatched h i := fun hi => absurd ((ht.mem_iff i).2 hi) (by simp)
    simp [unmatched_concat, hnot, Action.isPush]
  | cons j opened =>
    obtain ⟨houter, hsorted⟩ := List.pairwise_cons.1 ht.sorted
    -- Inside the innermost block no other is open, and around it there is at least this one.
    have hinner : pushes (since h j) = pops (since h j) := by
      rw [ht.surplus j (by simp), List.countP_cons_of_neg (by simp), countP_lt_eq_zero houter,
        Nat.add_zero]
    have hsurplus : ∀ i ∈ opened,
        pushes (since h i) = pops (since h i) + 1 + opened.countP (i < ·) := by
      intro i hi
      rw [ht.surplus i (by simp [hi]), List.countP_cons_of_pos (by simpa using houter i hi)]
      omega
    refine ⟨fun i => ?_, hsorted, fun i hi => ?_⟩
    · rw [unmatched_concat, ← ht.mem_iff, pops_concat, pushes_concat, List.tail_cons]
      simp only [Action.isPush, Action.isPop, Bool.false_eq_true, and_false, or_false, if_false,
        if_true, Nat.add_zero]
      constructor
      · intro hi
        have hi' := hsurplus i hi
        exact ⟨by simp [hi], by omega⟩
      · rintro ⟨hi, hle⟩
        rcases List.mem_cons.1 hi with rfl | hi
        · omega
        · exact hi
    · have hi' := hsurplus i hi
      rw [since_concat (ht.lt (by simp [show i ∈ opened from hi])), pushes_concat, pops_concat]
      simp only [Action.isPush, Action.isPop, Bool.false_eq_true, if_false, if_true, List.tail_cons]
      omega

theorem Tracks.length (ht : Tracks h opened) :
    opened.length = (List.range h.length).countP fun i => Unmatched h i := by
  rw [List.countP_eq_length_filter]
  apply List.Perm.length_eq
  have hnodup : opened.Nodup := List.Pairwise.imp (fun hlt => (Nat.ne_of_lt hlt).symm) ht.sorted
  rw [List.perm_ext_iff_of_nodup hnodup (List.nodup_range.filter _)]
  intro i
  rw [ht.mem_iff, List.mem_filter, List.mem_range, decide_eq_true_eq]
  exact ⟨fun hi => ⟨hi.lt, hi⟩, fun hi => hi.2⟩

/-! ## What names mean -/

/-- A frame is open. Frame zero is that of the sheet, and frame `i + 1` is that of the block which
the action at position `i` opened; so of two open frames the one with the higher number is the inner
one. -/
def IsOpen (h : History α) : Nat → Prop
  | 0 => True
  | i + 1 => Unmatched h i

/-- The frame that bindings go into. -/
def IsInnermost (h : History α) (n : Nat) : Prop :=
  IsOpen h n ∧ ∀ m, IsOpen h m → m ≤ n

/-- The action at position `k` declares a name in the frame `n`, the innermost at that time. -/
def Declares (h : History α) (k n : Nat) (name : String) (value : α) : Prop :=
  h[k]? = some (.declare name value) ∧ IsInnermost (h.take k) n

/-- The latest declaration of a name in the frame `n`. -/
def Latest (h : History α) (n : Nat) (name : String) (value : α) : Prop :=
  ∃ k, Declares h k n name value ∧ ∀ k' value', Declares h k' n name value' → k' ≤ k

/-- What a name means after a history: its latest declaration in the innermost open frame that
declares it. -/
def Binds (h : History α) (name : String) (value : α) : Prop :=
  ∃ n, IsOpen h n ∧ Latest h n name value ∧
    ∀ m, IsOpen h m → (∃ k value', Declares h k m name value') → m ≤ n

theorem Declares.lt (hd : Declares h k n name value) : k < h.length :=
  (List.getElem?_eq_some_iff.1 hd.1).1

theorem Declares.frame_le (hd : Declares h k n name value) : n ≤ k := by
  obtain ⟨-, hopen, -⟩ := hd
  cases n with
  | zero => omega
  | succ i =>
    have hlt := Unmatched.lt hopen
    rw [List.length_take] at hlt
    omega

theorem declares_concat :
    Declares (h ++ [a]) k n name value ↔ Declares h k n name value ∨
      (k = h.length ∧ a = .declare name value ∧ IsInnermost h n) := by
  rcases Nat.lt_trichotomy k h.length with hlt | rfl | hgt
  · have hne : k ≠ h.length := by omega
    rw [Declares, List.getElem?_append_left hlt, List.take_append_of_le_length (by omega)]
    simp [hne, Declares]
  · simp [Declares]
  · have hne : k ≠ h.length := by omega
    have hnot : ¬Declares h k n name value := fun hd => absurd hd.lt (by omega)
    have hnot' : ¬Declares (h ++ [a]) k n name value := by
      intro hd
      have hlt := hd.lt
      rw [List.length_append, List.length_singleton] at hlt
      omega
    simp [hne, hnot, hnot']

theorem exists_latest (hd : Declares h k n name value) : ∃ value', Latest h n name value' := by
  classical
  have hbound := hd.lt
  obtain ⟨value', hlast⟩ := Nat.findGreatest_spec (P := fun k => ∃ value, Declares h k n name value)
    hbound.le ⟨value, hd⟩
  exact ⟨value', _, hlast, fun k' value'' hd' => Nat.le_findGreatest hd'.lt.le ⟨value'', hd'⟩⟩

/-- The bindings of a frame are the latest declarations in it. -/
def Holds (h : History α) (n : Nat) (frame : Frame α) : Prop :=
  ∀ name value, frame.lookup name = some value ↔ Latest h n name value

theorem Holds.lookup_eq_none_iff (hf : Holds h n frame) :
    frame.lookup name = none ↔ ∀ k value, ¬Declares h k n name value := by
  constructor
  · intro hnone k value hd
    obtain ⟨last, hlast⟩ := exists_latest hd
    rw [(hf name last).2 hlast] at hnone
    cases hnone
  · intro hnone
    cases hlookup : frame.lookup name with
    | none => rfl
    | some value =>
      obtain ⟨k, hd, -⟩ := (hf name value).1 hlookup
      exact absurd hd (hnone k value)

theorem holds_nil (hn : h.length ≤ n) : Holds h n [] := by
  intro name value
  simp only [List.lookup_nil, reduceCtorEq, false_iff]
  rintro ⟨k, hd, -⟩
  have hlt := hd.lt
  have hle := hd.frame_le
  omega

theorem Holds.concat (hf : Holds h n frame)
    (ha : ∀ name value, a = .declare name value → ¬IsInnermost h n) :
    Holds (h ++ [a]) n frame := by
  have hsame : ∀ k name value, Declares (h ++ [a]) k n name value ↔ Declares h k n name value := by
    intro k name value
    rw [declares_concat, or_iff_left]
    rintro ⟨-, hdeclare, hinner⟩
    exact ha name value hdeclare hinner
  intro name value
  simp only [hf name value, Latest, hsame]

theorem Holds.declare (hf : Holds h n frame) (hn : IsInnermost h n) (name : String) (value : α) :
    Holds (h ++ [.declare name value]) n ((name, value) :: frame) := by
  intro other result
  have hnow : Declares (h ++ [.declare name value]) h.length n name value :=
    declares_concat.2 (.inr ⟨rfl, rfl, hn⟩)
  by_cases hname : other = name
  · -- The new declaration is later than all others.
    subst hname
    rw [List.lookup_cons_self, Option.some_inj]
    constructor
    · rintro rfl
      refine ⟨h.length, hnow, fun k value' hd => ?_⟩
      have hlt := hd.lt
      rw [List.length_append, List.length_singleton] at hlt
      omega
    · rintro ⟨k, hd, hlast⟩
      have hle := hlast _ _ hnow
      rcases declares_concat.1 hd with hd | ⟨-, heq, -⟩
      · exact absurd hd.lt (by omega)
      · exact (Action.declare.inj heq).2
  · have hsame : ∀ k value', Declares (h ++ [.declare name value]) k n other value' ↔
        Declares h k n other value' := by
      intro k value'
      rw [declares_concat, or_iff_left]
      rintro ⟨-, heq, -⟩
      exact hname (Action.declare.inj heq).1.symm
    have hne : (other == name) = false := by simpa using hname
    rw [List.lookup_cons, hne]
    simp only [hf other result, Latest, hsame]

/-! ## Frames and blocks -/

def innermost : List Nat → Nat
  | [] => 0
  | i :: _ => i + 1

theorem Tracks.isInnermost_iff (ht : Tracks h opened) : IsInnermost h n ↔ n = innermost opened := by
  have hself : IsInnermost h (innermost opened) := by
    cases opened with
    | nil =>
      refine ⟨trivial, fun m hm => ?_⟩
      cases m with
      | zero => exact Nat.le_refl 0
      | succ i => exact absurd ((ht.mem_iff i).2 hm) (by simp)
    | cons j opened =>
      refine ⟨(ht.mem_iff j).1 (by simp), fun m hm => ?_⟩
      cases m with
      | zero => exact Nat.zero_le _
      | succ i =>
        rcases List.mem_cons.1 ((ht.mem_iff i).2 hm) with rfl | hi
        · exact Nat.le_refl _
        · have hlt := (List.pairwise_cons.1 ht.sorted).1 i hi
          simp only [innermost]
          omega
  constructor
  · intro hn
    exact Nat.le_antisymm (hself.2 n hn.1) (hn.2 _ hself.1)
  · rintro rfl
    exact hself

/-- The frames of a scope are those of the open blocks and of the sheet. -/
structure Records (h : History α) (opened : List Nat) (s : Scope α) : Prop where
  blocks : List.Forall₂ (fun i frame => Holds h (i + 1) frame) opened s.blocks
  root : Holds h 0 s.root

theorem Records.concat (hr : Records h opened s) (ha : ∀ name value, a ≠ .declare name value) :
    Records (h ++ [a]) opened s where
  blocks := hr.blocks.imp fun _ _ hf => hf.concat fun name value heq => absurd heq (ha name value)
  root := hr.root.concat fun name value heq => absurd heq (ha name value)

theorem Records.push (hr : Records h opened s) :
    Records (h ++ [.push]) (h.length :: opened) s.push := by
  have hrest := hr.concat (a := .push) (by simp)
  exact ⟨.cons (holds_nil (by simp)) hrest.blocks, hrest.root⟩

theorem Records.pop (hr : Records h opened s) :
    Records (h ++ [.pop]) opened.tail s.pop := by
  obtain ⟨blocks, root⟩ := s
  obtain ⟨hblocks, hroot⟩ := hr.concat (a := .pop) (by simp)
  cases hblocks with
  | nil => exact ⟨.nil, hroot⟩
  | cons _ hblocks => exact ⟨hblocks, hroot⟩

theorem Records.declare (ht : Tracks h opened) (hr : Records h opened s) (name : String)
    (value : α) :
    Records (h ++ [.declare name value]) opened (s.declare name value) := by
  obtain ⟨blocks, root⟩ := s
  obtain ⟨hblocks, hroot⟩ := hr
  have hinner := ht.isInnermost_iff.2 rfl
  -- Every frame but the innermost is left alone.
  have hother : ∀ {n frame}, n ≠ innermost opened → Holds h n frame →
      Holds (h ++ [.declare name value]) n frame := by
    intro n frame hn hf
    exact hf.concat fun _ _ _ hinner => hn (ht.isInnermost_iff.1 hinner)
  cases hblocks with
  | nil => exact ⟨.nil, hroot.declare hinner name value⟩
  | cons hframe hblocks =>
    refine ⟨.cons (hframe.declare hinner name value) ?_, hother (by simp [innermost]) hroot⟩
    have houter := (List.pairwise_cons.1 ht.sorted).1
    refine ((List.forall₂_and_left _ _).2 ⟨houter, hblocks⟩).imp fun i frame hf => hother ?_ hf.2
    have hlt := hf.1
    simp only [innermost]
    omega

/-- After every history, the frames of the scope are those of the open blocks. -/
theorem exists_tracks (h : History α) :
    ∃ opened, Tracks h opened ∧ Records h opened (empty.after h) := by
  induction h using List.reverseRecOn with
  | nil => exact ⟨[], tracks_nil, .nil, holds_nil (Nat.le_refl 0)⟩
  | append_singleton h a ih =>
    obtain ⟨opened, ht, hr⟩ := ih
    rw [after_concat]
    cases a with
    | push => exact ⟨_, ht.push, hr.push⟩
    | pop => exact ⟨_, ht.pop, hr.pop⟩
    | declare name value => exact ⟨_, ht.declare name value, hr.declare ht name value⟩

/-- The numbers of the open frames, the innermost first. -/
def numbers (opened : List Nat) : List Nat :=
  opened.map (· + 1) ++ [0]

theorem Tracks.mem_numbers (ht : Tracks h opened) : n ∈ numbers opened ↔ IsOpen h n := by
  cases n with
  | zero => simp [numbers, IsOpen]
  | succ i => simp [numbers, IsOpen, ht.mem_iff]

theorem Tracks.sorted_numbers (ht : Tracks h opened) :
    (numbers opened).Pairwise (· > ·) := by
  refine List.pairwise_append.2 ⟨?_, List.pairwise_singleton .., by simp⟩
  exact List.pairwise_map.2 (ht.sorted.imp fun hlt => Nat.succ_lt_succ hlt)

theorem Records.frames (hr : Records h opened s) :
    List.Forall₂ (Holds h) (numbers opened) s.frames := by
  refine List.rel_append (List.forall₂_map_left_iff.2 hr.blocks) ?_
  exact .cons hr.root .nil

/-- A search through frames stops at the first that binds the name. -/
theorem findSome?_lookup {ns : List Nat} {frames : List (Frame α)}
    (hframes : List.Forall₂ (Holds h) ns frames) (hsorted : ns.Pairwise (· > ·)) :
    frames.findSome? (List.lookup name) = some value ↔
      ∃ n ∈ ns, Latest h n name value ∧
        ∀ m ∈ ns, (∃ k value', Declares h k m name value') → m ≤ n := by
  induction hframes with
  | nil => simp
  | @cons n frame ns frames hframe _ ih =>
    obtain ⟨hfirst, hsorted⟩ := List.pairwise_cons.1 hsorted
    rw [List.findSome?_cons]
    cases hlookup : frame.lookup name with
    | some bound =>
      have hbound := (hframe name bound).1 hlookup
      have ⟨k, hd, _⟩ := hbound
      simp only [Option.some_inj]
      constructor
      · rintro rfl
        refine ⟨n, by simp, hbound, fun m hm _ => ?_⟩
        rcases List.mem_cons.1 hm with rfl | hm
        · exact Nat.le_refl m
        · exact (hfirst m hm).le
      · rintro ⟨m, hm, hlatest, hinner⟩
        have hle := hinner n (by simp) ⟨k, bound, hd⟩
        rcases List.mem_cons.1 hm with rfl | hm
        · exact Option.some_inj.1 (hlookup.symm.trans ((hframe name value).2 hlatest))
        · exact absurd (hfirst m hm) (by omega)
    | none =>
      have hnone := hframe.lookup_eq_none_iff.1 hlookup
      have hnot : ∀ value', ¬Latest h n name value' := fun value' ⟨k, hd, _⟩ => hnone k value' hd
      simp only [ih hsorted, List.mem_cons, exists_eq_or_imp, forall_eq_or_imp, hnot, hnone,
        false_and, false_or, exists_false, false_imp_iff, true_and]

theorem findSome?_lookup_eq_none {ns : List Nat} {frames : List (Frame α)}
    (hframes : List.Forall₂ (Holds h) ns frames) :
    frames.findSome? (List.lookup name) = none ↔
      ∀ n ∈ ns, ∀ k value, ¬Declares h k n name value := by
  rw [List.findSome?_eq_none_iff]
  induction hframes with
  | nil => simp
  | cons hframe _ ih =>
    rw [List.forall_mem_cons, List.forall_mem_cons, hframe.lookup_eq_none_iff, ih]

end History

open History

theorem resolve_after (h : History α) (name : String) (value : α) :
    (empty.after h).resolve name = some value ↔ Binds h name value := by
  obtain ⟨opened, ht, hr⟩ := exists_tracks h
  rw [resolve, findSome?_lookup hr.frames ht.sorted_numbers]
  simp only [ht.mem_numbers, Binds]

theorem resolve_after_eq_none (h : History α) (name : String) :
    (empty.after h).resolve name = none ↔
      ∀ n, IsOpen h n → ∀ k value, ¬Declares h k n name value := by
  obtain ⟨opened, ht, hr⟩ := exists_tracks h
  rw [resolve, findSome?_lookup_eq_none hr.frames]
  simp only [ht.mem_numbers]

theorem depth_after (h : History α) :
    (empty.after h).depth = 1 + (List.range h.length).countP fun i => Unmatched h i := by
  obtain ⟨opened, ht, hr⟩ := exists_tracks h
  rw [← ht.length, depth, ← hr.frames.length_eq, numbers, List.length_append, List.length_map,
    List.length_singleton, Nat.add_comm]

/-! ## Blocks that are opened and closed -/

/-- `inner` is `outer` with some more blocks open. -/
def Above (outer : Scope α) (count : Nat) (inner : Scope α) : Prop :=
  ∃ frames : List (Frame α), frames.length = count ∧
    inner = { outer with blocks := frames ++ outer.blocks }

theorem Above.act {outer inner : Scope α} {count : Nat} (h : Above outer count inner)
    {a : Action α} (hcount : 0 < count) (ha : pops [a] < count + pushes [a]) :
    Above outer (count + pushes [a] - pops [a]) (inner.act a) := by
  obtain ⟨frames, rfl, rfl⟩ := h
  obtain ⟨frame, frames, rfl⟩ := List.exists_cons_of_length_pos hcount
  cases a with
  | push => exact ⟨[] :: frame :: frames, rfl, rfl⟩
  | pop => exact ⟨frames, rfl, rfl⟩
  | declare name value => exact ⟨((name, value) :: frame) :: frames, rfl, rfl⟩

theorem Above.after {outer inner : Scope α} {count : Nat} (h : Above outer count inner)
    {actions : History α}
    (hcount : ∀ part, part <+: actions → pops part < count + pushes part) :
    Above outer (count + pushes actions - pops actions) (inner.after actions) := by
  induction actions using List.reverseRecOn with
  | nil => exact h
  | append_singleton actions a ih =>
    have hpart := hcount actions (List.prefix_append _ _)
    have hall := hcount _ List.prefix_rfl
    have hinner := ih fun part hpart => hcount part (hpart.trans (List.prefix_append _ _))
    have hpushes : pushes (actions ++ [a]) = pushes actions + pushes [a] := List.countP_append
    have hpops : pops (actions ++ [a]) = pops actions + pops [a] := List.countP_append
    have hstep := hinner.act (a := a) (by omega) (by omega)
    have hsum : count + pushes (actions ++ [a]) - pops (actions ++ [a]) =
        count + pushes actions - pops actions + pushes [a] - pops [a] := by omega
    rw [after_concat, hsum]
    exact hstep

/-- What happens between a push and the pop that matches it leaves no trace. -/
theorem after_bracketed (s : Scope α) {inner : History α} (h : Balanced inner) :
    s.after (.push :: inner ++ [.pop]) = s := by
  have hpush : Above s 1 s.push := ⟨[[]], rfl, rfl⟩
  have hinner : Above s (1 + pushes inner - pops inner) (s.push.after inner) := by
    refine hpush.after fun part hpart => ?_
    have hle := h.1 part hpart
    omega
  rw [h.2, Nat.add_sub_cancel] at hinner
  obtain ⟨frames, hlength, hscope⟩ := hinner
  obtain ⟨frame, rfl⟩ := List.length_eq_one_iff.1 hlength
  have hafter : s.after (.push :: inner ++ [.pop]) = (s.push.after inner).pop := by
    simp [after, act]
  rw [hafter, hscope]
  rfl

theorem pop?_eq_none_iff (s : Scope α) : s.pop? = none ↔ s.depth = 1 := by
  obtain ⟨blocks, root⟩ := s
  cases blocks <;> simp [pop?, depth, frames]

/-- After every history the depth of a scope is one more than the number of unmatched pushes, and a
name means its latest declaration in the innermost open frame that declares it, or nothing if none
does. A pop is refused exactly at depth one, and then changes nothing. So what happens between a push
and its pop leaves no trace, and neither does checking a block or folding it, whether or not that
fails. -/
theorem discipline (h : History α) :
    (empty.after h).depth = 1 + ((List.range h.length).countP fun i => Unmatched h i) ∧
      (∀ name value, (empty.after h).resolve name = some value ↔ Binds h name value) ∧
      (∀ name, (empty.after h).resolve name = none ↔
        ∀ n, IsOpen h n → ∀ k value, ¬Declares h k n name value) ∧
      ((empty.after h).pop? = none ↔ (empty.after h).depth = 1) ∧
      ((empty.after h).depth = 1 → empty.after (h ++ [.pop]) = empty.after h) ∧
      (∀ inner, Balanced inner →
        empty.after (h ++ (.push :: inner ++ [.pop])) = empty.after h) ∧
      (∀ (scope : Scope Ty) body,
        (Checked.block scope body fun inner => Checked.statements inner body).scope = scope) ∧
      ∀ (scope : Scope Literal) body,
        (Folded.block scope body fun inner => Folded.statements inner body).scope = scope := by
  refine ⟨depth_after h, resolve_after h, resolve_after_eq_none h, pop?_eq_none_iff _, ?_, ?_,
    Checked.scope_block, Folded.scope_block⟩
  · intro hdepth
    rw [after_concat, act, pop, (pop?_eq_none_iff _).2 hdepth, Option.getD_none]
  · intro inner hinner
    have hafter : empty.after (h ++ (.push :: inner ++ [.pop])) =
        (empty.after h).after (.push :: inner ++ [.pop]) := List.foldl_append
    rw [hafter, after_bracketed _ hinner]

/-- A block that binds a name anew and is closed, with one pop too many. -/
def closed : History Nat :=
  [.declare "A" 1, .push, .declare "A" 2, .pop, .pop]

/-- Two blocks are open, and the inner one binds a name twice. -/
def shadowed : History Nat :=
  closed ++ [.push, .declare "B" 3, .push, .declare "A" 4, .declare "A" 5]

/-- A block that binds a variable to another one, which is not bound. -/
def unbound : List Statement :=
  [.assign ⟨⟨"X", ⟨0, 1⟩⟩, .reference ⟨0⟩ ⟨5, 6⟩ "Y", ⟨0, 7⟩⟩]

/-- In the inner block the name has the value it was bound to last, the other one that of the outer
block, and blocks that are opened and closed change neither. With all blocks closed, one more pop
changes nothing. Folding a block that fails leaves the scope alone. -/
theorem discipline_shadowed :
    (empty.after shadowed).depth = 3 ∧ Binds shadowed "A" 5 ∧ Binds shadowed "B" 3 ∧
      ¬Binds shadowed "A" 2 ∧
      Balanced [.declare "A" 6, .push, .declare "B" 7, .pop] ∧
      empty.after (shadowed ++
        [.push, .declare "A" 6, .push, .declare "B" 7, .pop, .pop]) = empty.after shadowed ∧
      (empty.after closed).depth = 1 ∧ empty.after (closed ++ [.pop]) = empty.after closed ∧
      (Folded.block (empty.declare "A" (.pixel 1)) unbound fun inner =>
        Folded.statements inner unbound).error = some (.unresolved "Y" ⟨5, 6⟩) ∧
      (Folded.block (empty.declare "A" (.pixel 1)) unbound fun inner =>
        Folded.statements inner unbound).scope = empty.declare "A" (.pixel 1) := by
  obtain ⟨-, hbinds, -, -, -, hinner, -, hfold⟩ := discipline shadowed
  obtain ⟨-, -, -, -, hrefused, -, -, -⟩ := discipline closed
  have hbalanced : Balanced [.declare "A" 6, .push, .declare "B" 7, .pop] := by decide
  have hclosed : (empty.after closed).depth = 1 := by decide
  refine ⟨by decide, (hbinds _ _).1 (by decide), (hbinds _ _).1 (by decide), fun h => ?_, hbalanced,
    hinner _ hbalanced, hclosed, hrefused hclosed, by decide, hfold _ _⟩
  exact absurd ((hbinds _ _).2 h) (by decide)

end Scope

end TypedStyle
