import Mathlib.Data.List.Infix
import TypedStyle.Proofs.Concatenation
import TypedStyle.Proofs.Passing

/-!
# Going on after mistakes

After a mistake in a block the reader looks for the next statement. It does not lose count of the
braces on the way: a block that it skips is skipped as a whole, and it stops in front of the brace
that closes the block in which it is. So what is wrong inside a rule stays inside the rule.

This takes two things of the tokens. Their braces are balanced (`Token.Balanced`), and each keyword is
followed by what opens its block (`Token.Headed`): a conditional that lacks its opening brace would
take the closing brace of the rule for its own.
-/

namespace TypedStyle

/-! ## Braces and heads -/

namespace Token

variable {tokens : List Token}

def openings (tokens : List Token) : Nat :=
  tokens.countP (·.kind = .punct .leftBrace)

def closings (tokens : List Token) : Nat :=
  tokens.countP (·.kind = .punct .rightBrace)

/-- The braces among the tokens are balanced: as many blocks are closed as opened, and none is closed
before it is opened. -/
structure Balanced (tokens : List Token) : Prop where
  whole : closings tokens = openings tokens
  front : ∀ front ∈ tokens.inits, closings front ≤ openings front

/-- The tokens start with `[`, a token that is no mark, `]` and an opening brace. -/
def StartsCondition (tokens : List Token) : Prop :=
  ∃ left value right brace rest, tokens = left :: value :: right :: brace :: rest ∧
    left.kind = .punct .leftBracket ∧ (∀ mark, value.kind ≠ .punct mark) ∧
    right.kind = .punct .rightBracket ∧ brace.kind = .punct .leftBrace

/-- The tokens start with an opening brace. -/
def StartsBlock (tokens : List Token) : Prop :=
  ∃ brace rest, tokens = brace :: rest ∧ brace.kind = .punct .leftBrace

/-- Every keyword among the tokens is followed by what it needs to open a block. -/
def Headed : List Token → Prop
  | [] => True
  | t :: rest =>
    (t.kind = .keyword .ifWord → StartsCondition rest) ∧
      (t.kind = .keyword .elseWord → StartsBlock rest) ∧ Headed rest

/-- With `depth` blocks open in front of the tokens, they close all of them, the last one with the
last token. The source does not end before. -/
inductive Closes : Nat → List Token → Prop
  | done : Closes 0 []
  | opening {depth : Nat} {t : Token} {rest : List Token} (ht : t.kind = .punct .leftBrace)
      (hrest : Closes (depth + 2) rest) : Closes (depth + 1) (t :: rest)
  | closing {depth : Nat} {t : Token} {rest : List Token} (ht : t.kind = .punct .rightBrace)
      (hrest : Closes depth rest) : Closes (depth + 1) (t :: rest)
  | other {depth : Nat} {t : Token} {rest : List Token} (heof : t.kind ≠ .eof) (ht : ¬t.IsBrace)
      (hrest : Closes (depth + 1) rest) : Closes (depth + 1) (t :: rest)

theorem Headed.suffix {part : List Token} (h : Headed tokens) (hpart : part <:+ tokens) :
    Headed part := by
  induction tokens with
  | nil =>
    rw [List.suffix_nil.1 hpart]
    trivial
  | cons t rest ih =>
    rcases List.suffix_cons_iff.1 hpart with rfl | hpart
    · exact h
    · exact ih h.2.2 hpart

theorem Headed.concat (h : Headed tokens) {last : Token}
    (hlast : ∀ word, last.kind ≠ .keyword word) : Headed (tokens ++ [last]) := by
  induction tokens with
  | nil => simp [Headed, hlast]
  | cons t rest ih =>
    obtain ⟨hif, helse, hrest⟩ := h
    refine ⟨fun ht => ?_, fun ht => ?_, ih hrest⟩
    · obtain ⟨left, value, right, brace, more, rfl, hkinds⟩ := hif ht
      exact ⟨left, value, right, brace, more ++ [last], rfl, hkinds⟩
    · obtain ⟨brace, more, rfl, hbrace⟩ := helse ht
      exact ⟨brace, more ++ [last], rfl, hbrace⟩

theorem closes_of_balanced {brace : Token} (hbrace : brace.kind = .punct .rightBrace)
    (heof : ∀ t ∈ tokens, t.kind ≠ .eof) {depth : Nat}
    (hwhole : closings tokens = depth + openings tokens)
    (hfront : ∀ front ∈ tokens.inits, closings front ≤ depth + openings front) :
    Closes (depth + 1) (tokens ++ [brace]) := by
  induction tokens generalizing depth with
  | nil =>
    obtain rfl : depth = 0 := by simpa [closings, openings] using hwhole.symm
    exact .closing hbrace .done
  | cons t rest ih =>
    have hrest : ∀ front ∈ rest.inits, closings (t :: front) ≤ depth + openings (t :: front) :=
      fun front hmem => hfront _ (by simpa using hmem)
    have heof' : ∀ t ∈ rest, t.kind ≠ .eof := fun t ht => heof t (List.mem_cons_of_mem _ ht)
    by_cases hopen : t.kind = .punct .leftBrace
    · -- One more block is open behind the brace.
      have hcount (front : List Token) : closings (t :: front) = closings front ∧
          openings (t :: front) = openings front + 1 := by
        simp [closings, openings, hopen]
      refine .opening hopen (ih heof' ?_ fun front hmem => ?_)
      · rw [(hcount rest).1, (hcount rest).2] at hwhole
        omega
      · have hle := hrest front hmem
        rw [(hcount front).1, (hcount front).2] at hle
        omega
    · by_cases hclose : t.kind = .punct .rightBrace
      · have hcount (front : List Token) : closings (t :: front) = closings front + 1 ∧
            openings (t :: front) = openings front := by
          simp [closings, openings, hclose]
        -- The brace alone is a front part, so there is a block that it closes.
        have hpos := hrest [] (by simp)
        rw [(hcount []).1, (hcount []).2] at hpos
        cases depth with
        | zero => simp [closings, openings] at hpos
        | succ depth =>
          refine .closing hclose (ih heof' ?_ fun front hmem => ?_)
          · rw [(hcount rest).1, (hcount rest).2] at hwhole
            omega
          · have hle := hrest front hmem
            rw [(hcount front).1, (hcount front).2] at hle
            omega
      · have hcount (front : List Token) : closings (t :: front) = closings front ∧
            openings (t :: front) = openings front := by
          simp [closings, openings, hopen, hclose]
        have hplain : ¬t.IsBrace := fun h => h.elim hopen hclose
        refine .other (heof t List.mem_cons_self) hplain (ih heof' ?_ fun front hmem => ?_)
        · rwa [(hcount rest).1, (hcount rest).2] at hwhole
        · have hle := hrest front hmem
          rwa [(hcount front).1, (hcount front).2] at hle

namespace Closes

variable {depth : Nat}

theorem ne_eof {tokens : List Token} (h : Closes depth tokens) : ∀ t ∈ tokens, t.kind ≠ .eof := by
  induction h with
  | done => simp
  | opening ht hrest ih => exact List.forall_mem_cons.2 ⟨by simp [ht], ih⟩
  | closing ht hrest ih => exact List.forall_mem_cons.2 ⟨by simp [ht], ih⟩
  | other heof ht hrest ih => exact List.forall_mem_cons.2 ⟨heof, ih⟩

theorem tail {t : Token} {rest : List Token} (h : Closes (depth + 1) (t :: rest))
    (ht : ¬t.IsBrace) : Closes (depth + 1) rest := by
  cases h with
  | opening hopen => exact absurd (.inl hopen) ht
  | closing hclose => exact absurd (.inr hclose) ht
  | other _ _ hrest => exact hrest

/-- Tokens that are passed over without a brace among them end before the closing brace. -/
theorem of_passed {ahead tail used rest : List Token} (h : Closes (depth + 1) ahead)
    (happend : ahead ++ tail = used ++ rest) (hused : ∀ t ∈ used, ¬t.IsBrace) :
    ∃ ahead', rest = ahead' ++ tail ∧ Closes (depth + 1) ahead' ∧ ahead' <:+ ahead := by
  induction used generalizing ahead with
  | nil => exact ⟨ahead, happend.symm, h, List.suffix_rfl⟩
  | cons t used ih =>
    obtain ⟨ht, hused⟩ := List.forall_mem_cons.1 hused
    cases h with
    | opening hopen =>
      obtain ⟨rfl, -⟩ := List.cons.inj happend
      exact absurd (.inl hopen) ht
    | closing hclose =>
      obtain ⟨rfl, -⟩ := List.cons.inj happend
      exact absurd (.inr hclose) ht
    | other heof hplain hrest =>
      obtain ⟨-, happend⟩ := List.cons.inj happend
      obtain ⟨ahead', hrest', hcloses, hsuffix⟩ := ih hrest happend hused
      exact ⟨ahead', hrest', hcloses, hsuffix.trans (List.suffix_cons ..)⟩

/-- Skipping a statement, with some more blocks opened on the way, stops before the closing
brace. -/
theorem skipStatement {ahead : List Token} (opened : Nat) (last : Option Token)
    (tail : List Token) (h : Closes (depth + 1 + opened) ahead) :
    ∃ ahead', (Reader.skipStatement opened last (ahead ++ tail)).2 = ahead' ++ tail ∧
      Closes (depth + 1) ahead' ∧ ahead' <:+ ahead := by
  generalize hall : depth + 1 + opened = all at h
  induction h generalizing opened last with
  | done => omega
  | @opening _ t rest ht hrest ih =>
    obtain ⟨ahead', hskip, hcloses, hsuffix⟩ := ih (opened + 1) (some t) (by omega)
    refine ⟨ahead', ?_, hcloses, hsuffix.trans (List.suffix_cons ..)⟩
    simp only [List.cons_append, Reader.skipStatement, ht, hskip]
  | @closing inner t rest ht hrest ih =>
    cases opened with
    | zero =>
      refine ⟨t :: rest, by simp [Reader.skipStatement, ht], ?_, List.suffix_rfl⟩
      obtain rfl : inner = depth := by omega
      exact .closing ht hrest
    | succ opened =>
      obtain ⟨ahead', hskip, hcloses, hsuffix⟩ := ih opened (some t) (by omega)
      refine ⟨ahead', ?_, hcloses, hsuffix.trans (List.suffix_cons ..)⟩
      simp only [List.cons_append, Reader.skipStatement, ht, hskip]
  | @other inner t rest heof ht hrest ih =>
    rw [List.cons_append]
    unfold Reader.skipStatement
    split
    case h_1 hkind => exact absurd hkind heof
    case h_2 hkind => exact absurd (.inl hkind) ht
    case h_3 hkind => exact absurd (.inr hkind) ht
    case h_4 hkind => exact absurd (.inr hkind) ht
    case h_5 =>
      obtain rfl : inner = depth := by omega
      exact ⟨rest, rfl, hrest, List.suffix_cons ..⟩
    case h_6 =>
      obtain ⟨ahead', hskip, hcloses, hsuffix⟩ := ih _ (some t) hall
      exact ⟨ahead', hskip, hcloses, hsuffix.trans (List.suffix_cons ..)⟩

end Closes

end Token

/-! ## Reading stays inside -/

namespace Reader

variable {r : Reader}

/-- The reader is inside of `depth` blocks, which are closed in front of `tail`. -/
def Inside (tail : List Token) (depth : Nat) (r : Reader) : Prop :=
  ∃ ahead, r.rest = ahead ++ tail ∧ Token.Closes depth ahead ∧ Token.Headed ahead

/-- The reader is at the brace that closes a block, and that block is inside of `depth` others. -/
def AtClose (tail : List Token) (depth : Nat) (r : Reader) : Prop :=
  ∃ t rest, r.rest = t :: rest ∧ t.kind = .punct .rightBrace ∧ Inside tail depth (r.advance t rest)

variable {tail : List Token} {depth : Nat}

namespace Inside

variable {r : Reader} {t : Token} {rest : List Token}

theorem of_passes {s : Reader} (h : Inside tail (depth + 1) r) (hpass : Passes (¬·.IsBrace) r s) :
    Inside tail (depth + 1) s := by
  obtain ⟨ahead, hrest, hcloses, hheaded⟩ := h
  obtain ⟨used, hused, hplain⟩ := hpass.rest
  obtain ⟨ahead', hrest', hcloses', hsuffix⟩ := hcloses.of_passed (hrest.symm.trans hused) hplain
  exact ⟨ahead', hrest', hcloses', hheaded.suffix hsuffix⟩

theorem toStatement (h : Inside tail (depth + 1) r) : Inside tail (depth + 1) r.toStatement := by
  obtain ⟨ahead, hrest, hcloses, hheaded⟩ := h
  obtain ⟨ahead', hskip, hcloses', hsuffix⟩ := hcloses.skipStatement 0 r.last tail
  exact ⟨ahead', by rw [← hskip, ← hrest]; rfl, hcloses', hheaded.suffix hsuffix⟩

theorem advance_opening (h : Inside tail (depth + 1) r) (hrest : r.rest = t :: rest)
    (ht : t.kind = .punct .leftBrace) : Inside tail (depth + 2) (r.advance t rest) := by
  obtain ⟨ahead, hahead, hcloses, hheaded⟩ := h
  cases hcloses with
  | opening hopen hcloses =>
    obtain ⟨-, hrest'⟩ := List.cons.inj (hrest.symm.trans hahead)
    exact ⟨_, hrest', hcloses, hheaded.2.2⟩
  | closing hclose =>
    obtain ⟨rfl, -⟩ := List.cons.inj (hrest.symm.trans hahead)
    simp [ht] at hclose
  | other heof hplain =>
    obtain ⟨rfl, -⟩ := List.cons.inj (hrest.symm.trans hahead)
    exact absurd (.inl ht) hplain

theorem atClose (h : Inside tail (depth + 1) r) (hrest : r.rest = t :: rest)
    (ht : t.kind = .punct .rightBrace) : AtClose tail depth r := by
  obtain ⟨ahead, hahead, hcloses, hheaded⟩ := h
  cases hcloses with
  | opening hopen =>
    obtain ⟨rfl, -⟩ := List.cons.inj (hrest.symm.trans hahead)
    simp [ht] at hopen
  | closing hclose hcloses =>
    obtain ⟨-, hrest'⟩ := List.cons.inj (hrest.symm.trans hahead)
    exact ⟨t, rest, hrest, ht, _, hrest', hcloses, hheaded.2.2⟩
  | other heof hplain =>
    obtain ⟨rfl, -⟩ := List.cons.inj (hrest.symm.trans hahead)
    exact absurd (.inr ht) hplain

theorem rest_eq (h : Inside tail 0 r) : r.rest = tail := by
  obtain ⟨ahead, hrest, hcloses, -⟩ := h
  cases hcloses with
  | done => exact hrest

theorem startsBlock (h : Inside tail (depth + 1) r) (hrest : r.rest = t :: rest)
    (ht : t.kind = .keyword .elseWord) : Token.StartsBlock rest := by
  obtain ⟨ahead, hahead, hcloses, hheaded⟩ := h
  cases ahead with
  | nil => cases hcloses
  | cons x ahead =>
    obtain ⟨rfl, rfl⟩ := List.cons.inj (hrest.symm.trans hahead)
    obtain ⟨brace, more, rfl, hbrace⟩ := hheaded.2.1 ht
    exact ⟨brace, more ++ tail, rfl, hbrace⟩

end Inside

theorem StatementLead.not_isBrace {t : Token} (hstop : of t.kind ≠ .stop)
    (hnothing : of t.kind ≠ .nothing) : ¬t.IsBrace := by
  rintro (ht | ht)
  · exact hnothing (by rw [ht]; rfl)
  · exact hstop (by rw [ht]; rfl)

theorem AtClose.closeBlock (h : AtClose tail depth r) (opening : Span) (body : List Statement) :
    Inside tail depth (Reader.closeBlock opening body r) := by
  obtain ⟨t, rest, hrest, hkind, hinside⟩ := h
  unfold Reader.closeBlock
  rw [expect_of_rest hrest hkind]
  split
  · exact hinside
  · exact hinside

theorem rest_value {t : Token} {rest : List Token} (hrest : r.rest = t :: rest)
    (hmark : ∀ mark, t.kind ≠ .punct mark) (heof : t.kind ≠ .eof) : r.value.2.rest = rest := by
  have hbump : r.bump = r.advance t rest := bump_of_rest hrest heof
  simp only [value, peek_of_rest hrest]
  split
  case h_1 hkind => exact absurd hkind (hmark _)
  case h_2 hkind => exact absurd hkind heof
  case h_8 => split <;> simp [hbump]
  all_goals simp [hbump]

theorem rest_condition {left value right : Token} {rest : List Token}
    (hrest : r.rest = left :: value :: right :: rest) (hleft : left.kind = .punct .leftBracket)
    (hmark : ∀ mark, value.kind ≠ .punct mark) (heof : value.kind ≠ .eof)
    (hright : right.kind = .punct .rightBracket) : r.condition.2.rest = rest := by
  have hopen : r.number.2.expect .leftBracket = r.number.2.advance left (value :: right :: rest) :=
    expect_of_rest hrest hleft
  have hvalue : (r.number.2.advance left (value :: right :: rest)).value.2.rest = right :: rest :=
    rest_value rfl hmark heof
  have hclose := expect_of_rest hvalue hright
  simp only [condition, hopen, hclose, rest_advance]

mutual

/-- A block ends at the brace that closes it. -/
theorem inside_block {r : Reader} {t : Token} {rest : List Token} {depth : Nat}
    (hrest : r.rest = t :: rest) (ht : t.kind = .punct .leftBrace)
    (h : Inside tail (depth + 1) (r.advance t rest)) : Inside tail depth r.block.2 := by
  have hlen : r.rest.length = rest.length + 1 := by simp [hrest]
  rw [block_eq, expect_of_rest hrest ht]
  exact (inside_statements h).closeBlock ..
termination_by 3 * r.rest.length + 1

theorem inside_conditional (start : Span) {r : Reader} {ahead : List Token} {depth : Nat}
    (hrest : r.rest = ahead ++ tail) (hcloses : Token.Closes (depth + 1) ahead)
    (hheaded : Token.Headed ahead) (hstarts : Token.StartsCondition ahead) :
    Inside tail (depth + 1) (r.conditional start).2 := by
  -- The condition is as it should be, so that its block starts at the opening brace.
  obtain ⟨left, value, right, brace, more, rfl, hleft, hmark, hright, hbrace⟩ := hstarts
  have heof : value.kind ≠ .eof := hcloses.ne_eof value (by simp)
  have hbody : r.condition.2.rest = brace :: (more ++ tail) :=
    rest_condition hrest hleft hmark heof hright
  have hinside : Inside tail (depth + 1) r := ⟨_, hrest, hcloses, hheaded⟩
  have hlen := length_condition_le r
  have hlen' := length_block_le r.condition.2
  have hblock : Inside tail (depth + 1) r.condition.2.block.2 :=
    inside_block hbody hbrace
      ((hinside.of_passes (passes_condition r)).advance_opening hbody hbrace)
  rw [conditional_eq]
  dsimp only
  split
  · exact hblock
  · next elseStart s helse =>
    have hafter := hblock.of_passes (passes_eatElse helse)
    obtain ⟨t, rest, hkeyword, hkind, -, rfl⟩ := exists_of_eatElse helse
    have hlt : rest.length < r.condition.2.block.2.rest.length := by simp [hkeyword]
    obtain ⟨brace', more', hmore, hbrace'⟩ := hblock.startsBlock hkeyword hkind
    exact inside_block hmore hbrace' (hafter.advance_opening hmore hbrace')
termination_by 3 * r.rest.length + 2

/-- Reading statements stops at the brace that closes their block. -/
theorem inside_statements {r : Reader} {depth : Nat} (h : Inside tail (depth + 1) r) :
    AtClose tail depth r.statements.2 := by
  obtain ⟨ahead, hrest, hcloses, hheaded⟩ := id h
  cases ahead with
  | nil => cases hcloses
  | cons t ahead =>
    obtain ⟨rest, hahead⟩ : ∃ rest, rest = ahead ++ tail := ⟨_, rfl⟩
    rw [List.cons_append, ← hahead] at hrest
    have hlen : r.rest.length = rest.length + 1 := by simp [hrest]
    have hafter (hplain : ¬t.IsBrace) : Inside tail (depth + 1) (r.advance t rest) :=
      h.of_passes (.advance hrest hplain)
    -- A statement is passed over without a brace, or block by block, and skipping keeps count.
    rw [statements_eq, hrest]
    dsimp only
    split
    · next hlead =>
      rcases StatementLead.kind_of_stop hlead with hkind | hkind
      · exact h.atClose hrest hkind
      · exact absurd hkind (hcloses.ne_eof t List.mem_cons_self)
    · next name hlead =>
      have hplain : ¬t.IsBrace := StatementLead.not_isBrace (by simp [hlead]) (by simp [hlead])
      have hle : (declaration ⟨name, t.span⟩ (r.advance t rest)).2.rest.length ≤ rest.length :=
        length_declaration_le _ _
      exact inside_statements ((hafter hplain).of_passes (passes_declaration ..))
    · next name hlead =>
      have hplain : ¬t.IsBrace := StatementLead.not_isBrace (by simp [hlead]) (by simp [hlead])
      have hle : (assignment ⟨name, t.span⟩ (r.advance t rest)).2.rest.length ≤ rest.length :=
        length_assignment_le _ _
      exact inside_statements ((hafter hplain).of_passes (passes_assignment ..))
    · next hlead =>
      have hplain : ¬t.IsBrace := StatementLead.not_isBrace (by simp [hlead]) (by simp [hlead])
      have hkind : t.kind = .keyword .ifWord := StatementLead.eq_of_kind? (by rw [hlead]; rfl)
      have hle : ((r.advance t rest).conditional t.span).2.rest.length ≤ rest.length :=
        (conditionalReads t.span (r.advance t rest)).2
      exact inside_statements
        (inside_conditional t.span hahead (hcloses.tail hplain) hheaded.2.2 (hheaded.1 hkind))
    · next hlead =>
      have hlt := length_stray_statement_lt hrest hlead
      exact inside_statements (h.of_passes (.report ..)).toStatement
termination_by 3 * r.rest.length

end

theorem rest_block {opening closing : Token} {junk : List Token}
    (hrest : r.rest = opening :: (junk ++ closing :: tail))
    (hopening : opening.kind = .punct .leftBrace) (hclosing : closing.kind = .punct .rightBrace)
    (heof : ∀ t ∈ junk, t.kind ≠ .eof) (hbalanced : Token.Balanced junk)
    (hheaded : Token.Headed junk) :
    r.block.2.rest = tail ∧ tail.length < (r.expect .leftBrace).statements.2.rest.length := by
  have hinside : Inside tail 1 (r.advance opening (junk ++ closing :: tail)) := by
    refine ⟨junk ++ [closing], by simp, ?_, hheaded.concat (by simp [hclosing])⟩
    exact Token.closes_of_balanced hclosing heof (by simpa using hbalanced.whole)
      (by simpa using hbalanced.front)
  refine ⟨(inside_block hrest hopening hinside).rest_eq, ?_⟩
  obtain ⟨t, rest, hclose, -, hafter⟩ := inside_statements hinside
  rw [expect_of_rest hrest hopening, hclose, ← hafter.rest_eq]
  exact Nat.lt_succ_self _

end Reader

/-- Tokens are found again where they are, behind as many nodes and some problems. -/
def Embedding.behind (nodes : Nat) (before : List Diagnostic) : Embedding :=
  { extension [] [] with
    shift := nodes
    before }

theorem Embedding.map_diagnostic {m : Embedding} (hspans : m.spans = fun s => s)
    {ds : List Diagnostic} (h : ∀ d ∈ ds, d.node = none) : ds.map m.diagnostic = ds := by
  have hsame : ∀ d ∈ ds, m.diagnostic d = d := by
    intro d hd
    simp only [diagnostic, hspans, h d hd, Option.map_none]
    rw [← h d hd]
  rw [List.map_congr_left hsame, List.map_id']

namespace Reader

/-- A reader goes on like one that starts where it is, behind the nodes and problems that it has. -/
theorem items_behind (r : Reader) :
    r.items.1 = (start r.rest []).items.1.map
        (Item.relabel (fun id => ⟨id.val + r.nextId⟩) fun span => span) ∧
      r.items.2.diagnostics = r.diagnostics ++ (start r.rest []).items.2.diagnostics := by
  have hfaces : Faces (.behind r.nextId r.diagnostics) (start r.rest []) r := by
    refine ⟨⟨r.rest, (List.append_nil _).symm, ?_⟩, (Nat.zero_add _).symm, (List.append_nil _).symm⟩
    have hid : (Embedding.behind r.nextId r.diagnostics).token = fun t => t := rfl
    rw [hid, List.map_id']
    exact (List.append_nil _).symm
  obtain ⟨hitems, hafter⟩ := hfaces.items ⟨rfl, rfl⟩
  obtain ⟨found, hfound, hnode⟩ := (passes_items (start r.rest [])).diagnostics
  refine ⟨hitems, ?_⟩
  rw [hafter.diagnostics, hfound]
  exact congrArg (r.diagnostics ++ ·) (Embedding.map_diagnostic rfl hnode)

/-- In front of a token a member of the sheet or a problem is found, so that the sheet is not reported
as empty. -/
theorem sheet_of_ne_eof {t : Token} (ht : t.kind ≠ .eof) (rest : List Token) :
    (start (t :: rest) []).sheet.2 = (start (t :: rest) []).items.2 := by
  refine if_neg fun hnothing => ?_
  rw [Bool.and_eq_true, List.isEmpty_iff, List.isEmpty_iff] at hnothing
  have hstart := items_of_nothing hnothing.1 hnothing.2
  -- The reader has not moved, but it goes on to the end of the source.
  obtain hnil | ⟨t', rest', hrest, hkind⟩ := items_stops (start (t :: rest) [])
  · rw [hstart] at hnil
    cases hnil
  · rw [hstart] at hrest
    obtain ⟨rfl, -⟩ := List.cons.inj hrest
    exact ht hkind

/-- A rule with balanced braces inside is read alike in front of the end of the source and in front of
other tokens, and both times up to its end. -/
theorem items_of_rule {selector : Selector} {name opening closing : Token} {junk : List Token}
    (hname : name.kind = selector.kind) (hopening : opening.kind = .punct .leftBrace)
    (hclosing : closing.kind = .punct .rightBrace) (heof : ∀ t ∈ junk, t.kind ≠ .eof)
    (hbalanced : Token.Balanced junk) (hheaded : Token.Headed junk) {stop : Token}
    (hstop : stop.kind = .eof) (tail : List Token) :
    ∃ (rule : Rule) (after after' : Reader), rule.selector = selector ∧
      (start (name :: opening :: (junk ++ [closing, stop])) []).items = ([.rule rule], after) ∧
      (start (name :: opening :: (junk ++ closing :: tail)) []).items =
        (.rule rule :: after'.items.1, after'.items.2) ∧
      after'.rest = tail ∧ after'.nextId = after.nextId ∧ after'.diagnostics = after.diagnostics := by
  have hlead : ItemLead.of name.kind = .selector selector := by
    cases selector <;> rw [hname] <;> rfl
  let s := (start (name :: opening :: (junk ++ [closing, stop])) []).advance name
    (opening :: (junk ++ [closing, stop]))
  let s' := (start (name :: opening :: (junk ++ closing :: tail)) []).advance name
    (opening :: (junk ++ closing :: tail))
  -- Reading the rule does not get to the token behind it, whatever that is.
  obtain ⟨hrest, hsees⟩ := rest_block (r := s) rfl hopening hclosing heof hbalanced hheaded
  obtain ⟨hrest', -⟩ := rest_block (r := s') rfl hopening hclosing heof hbalanced hheaded
  have hmirrors : Mirrors (.extension [stop] tail) s s' := by
    have hassoc (more : List Token) :
        opening :: (junk ++ closing :: more) = opening :: (junk ++ [closing]) ++ more :=
      congrArg (opening :: ·) (List.append_cons junk closing more)
    refine ⟨⟨⟨opening :: (junk ++ [closing]), hassoc [stop], ?_⟩, rfl, rfl⟩, ⟨name, rfl, rfl⟩⟩
    have hid : (Embedding.extension [stop] tail).token = fun t => t := rfl
    rw [hid, List.map_id']
    exact hassoc tail
  obtain ⟨hblock, hnext⟩ := hmirrors.block (.inl hsees)
  have hbody : s'.block.1 = s.block.1 := hblock.trans (Statement.relabelAll_self _)
  have hend : s.block.2.items = ([], s.block.2) := by
    simp [items_eq, hrest, hstop, ItemLead.of]
  refine ⟨⟨selector, s.block.1, name.span.merge s.block.2.prevSpan⟩, s.block.2, s'.block.2, rfl,
    ?_, ?_, hrest', hnext.nextId, ?_⟩
  · rw [items_of_selector rfl hlead]
    exact congrArg (fun found : List Item × Reader => (_ :: found.1, found.2)) hend
  · rw [items_of_selector rfl hlead, ← hbody]
    have hprev : s'.block.2.prevSpan = s.block.2.prevSpan := hnext.prevSpan
    rw [← hprev]
  · obtain ⟨found, hfound, hnode⟩ := (passes_block s).diagnostics
    rw [hnext.diagnostics, hfound]
    exact Embedding.map_diagnostic rfl hnode

/-- Mistakes inside a rule do not reach beyond it. Let the tokens between the braces of a rule be any
whose own braces are balanced and whose keywords are followed by what opens a block, and let other
tokens than the end of the source follow. Then reading finds the rule with its selector, as if it
stood alone, and behind it what is found where the other tokens stand alone: the same members, with
identities further on by the nodes of the rule, and the same problems behind those of the rule. -/
theorem sheet_recovers (selector : Selector) {name opening closing stop next : Token}
    {junk rest : List Token} (hname : name.kind = selector.kind)
    (hopening : opening.kind = .punct .leftBrace) (hclosing : closing.kind = .punct .rightBrace)
    (heof : ∀ t ∈ junk, t.kind ≠ .eof) (hbalanced : Token.Balanced junk)
    (hheaded : Token.Headed junk) (hstop : stop.kind = .eof) (hnext : next.kind ≠ .eof) :
    let alone := (start (name :: opening :: (junk ++ [closing, stop])) []).sheet
    let others := (start (next :: rest) []).sheet
    let whole := (start (name :: opening :: (junk ++ closing :: next :: rest)) []).sheet
    ∃ rule : Rule, rule.selector = selector ∧ alone.1.items = [.rule rule] ∧
      whole.1.items = .rule rule :: others.1.items.map
        (Item.relabel (fun id => ⟨id.val + alone.1.ids.length⟩) fun span => span) ∧
      whole.2.diagnostics = alone.2.diagnostics ++ others.2.diagnostics := by
  intro alone others whole
  obtain ⟨rule, after, after', hselector, halone, hwhole, hrest, hid, hdiagnostics⟩ :=
    items_of_rule hname hopening hclosing heof hbalanced hheaded hstop (next :: rest)
  obtain ⟨hitems, hfound⟩ := items_behind after'
  rw [hrest] at hitems hfound
  have hname' : name.kind ≠ .eof := by
    cases selector <;> simp [hname, Selector.kind]
  have halone' : alone.2 = after :=
    (sheet_of_ne_eof hname' _).trans (by rw [halone])
  have hwhole' : whole.2 = after'.items.2 :=
    (sheet_of_ne_eof hname' _).trans (by rw [hwhole])
  -- The nodes of the rule are those that were made before the other tokens.
  have hlabels := items_labels (P := fun _ => True)
    (r := start (name :: opening :: (junk ++ [closing, stop])) [])
    ⟨⟨trivial, fun _ _ => trivial⟩, by simp, by simp, by simp⟩
  have hids : alone.1.ids.length = after'.nextId :=
    calc alone.1.ids.length
      _ = alone.1.nodes.length := List.length_map _
      _ = (start (name :: opening :: (junk ++ [closing, stop])) []).items.2.nextId := by
        rw [hlabels.nextId]
        exact (Nat.zero_add _).symm
      _ = after'.nextId := by rw [halone, hid]
  refine ⟨rule, hselector, by simp only [alone, sheet, halone], ?_, ?_⟩
  · rw [hids]
    simp only [whole, others, sheet, hwhole, hitems]
  · rw [hwhole', hfound, hdiagnostics, halone', sheet_of_ne_eof hnext]

/-- `A := ; if [ x ] { width 1px { ] } } else { * } else { ; } height : 1px`: no statement among them is
without a mistake, and the last one is cut off. -/
def garbled : List Token :=
  [.capital "A", .punct .assign, .punct .semicolon, .keyword .ifWord, .punct .leftBracket, .lower "x",
    .punct .rightBracket, .punct .leftBrace, .lower "width", .pixel 1, .punct .leftBrace,
    .punct .rightBracket, .punct .rightBrace, .punct .rightBrace, .keyword .elseWord,
    .punct .leftBrace, .punct .star, .punct .rightBrace, .keyword .elseWord, .punct .leftBrace,
    .punct .semicolon, .punct .rightBrace, .lower "height", .punct .colon, .pixel 1].map
      fun kind => ⟨kind, .zero⟩

theorem balanced_garbled : Token.Balanced garbled := by
  constructor <;> decide

theorem headed_garbled : Token.Headed garbled := by
  simp [garbled, Token.Headed, Token.StartsCondition, Token.StartsBlock]

/-- The rule has eight mistakes, and the assignment behind it three of its own. -/
theorem sheet_recovers_garbled :
    let token (kind : Token.Kind) : Token := ⟨kind, .zero⟩
    let front := token (.lower "a") :: token (.punct .leftBrace) :: garbled
    let back := [token (.capital "B"), token (.punct .assign), token (.punct .rightBracket),
      token .eof]
    let alone := (start (front ++ [token (.punct .rightBrace), token .eof]) []).sheet
    let others := (start back []).sheet
    let whole := (start (front ++ token (.punct .rightBrace) :: back) []).sheet
    Token.Balanced garbled ∧ Token.Headed garbled ∧ alone.2.diagnostics.length = 8 ∧
      others.2.diagnostics.length = 3 ∧
      ∃ rule : Rule, rule.selector = .tag "a" ∧ alone.1.items = [.rule rule] ∧
        whole.1.items = .rule rule :: others.1.items.map
          (Item.relabel (fun id => ⟨id.val + alone.1.ids.length⟩) fun span => span) ∧
        whole.2.diagnostics = alone.2.diagnostics ++ others.2.diagnostics :=
  ⟨balanced_garbled, headed_garbled, by decide +kernel, by decide +kernel,
    sheet_recovers (.tag "a") rfl rfl rfl (by decide) balanced_garbled headed_garbled rfl
      (by decide)⟩

end Reader

end TypedStyle
