import TypedStyle.Proofs.Grammar
import TypedStyle.Sheet.Parser

/-!
# The parser reads only sheets of the grammar

A reader that meets no problem has read the tokens of a derivation. `Consumes r s P` says so of a
single function of the reader, which takes `r` to `s`: problems are never taken back, and when none
was added, the tokens between `r` and `s` have kinds that satisfy `P`. A function that recovers from
a mistake has added a problem, so that nothing has to be said about the tokens it skips.
-/

namespace TypedStyle

theorem Grammar.Value.ne_eof {k : Token.Kind} {e : Expr} (h : Value k e) : k ≠ .eof := by
  cases h <;> simp

theorem Grammar.Select.ne_eof {k : Token.Kind} {selector : Selector} (h : Select k selector) :
    k ≠ .eof := by
  cases h <;> simp

namespace Reader

variable {t : Token} {rest : List Token} {r s : Reader} {kind : Token.Kind}

/-! ## Reading without problems -/

/-- How many problems have been met. -/
def found (r : Reader) : Nat :=
  r.diagnostics.length

@[simp]
theorem found_report (r : Reader) (span : Span) (problem : Problem) :
    (r.report span problem).found = r.found + 1 := by
  simp [report, found]

@[simp]
theorem found_reportPrev (r : Reader) (problem : Problem) :
    (r.reportPrev problem).found = r.found + 1 := by
  simp [reportPrev, report, found]

@[simp]
theorem found_advance (r : Reader) (t : Token) (rest : List Token) :
    (r.advance t rest).found = r.found := rfl

/-- The end of the source is the last token and stands nowhere else. -/
def Closed (tokens : List Token) : Prop :=
  ∃ front last, tokens = front ++ [last] ∧ last.kind = .eof ∧ ∀ t ∈ front, t.kind ≠ .eof

theorem Closed.exists_cons {tokens : List Token} (h : Closed tokens) :
    ∃ t rest, tokens = t :: rest := by
  obtain ⟨front, last, rfl, -, -⟩ := h
  cases front with
  | nil => exact ⟨last, [], rfl⟩
  | cons t front => exact ⟨t, front ++ [last], rfl⟩

theorem Closed.tail (h : Closed (t :: rest)) (ht : t.kind ≠ .eof) : Closed rest := by
  obtain ⟨front, last, heq, hlast, hfront⟩ := h
  cases front with
  | nil =>
    obtain ⟨rfl, -⟩ : t = last ∧ rest = [] := by simpa using heq
    exact absurd hlast ht
  | cons first front =>
    obtain ⟨-, rfl⟩ : t = first ∧ rest = front ++ [last] := by simpa using heq
    exact ⟨front, last, rfl, hlast, fun t ht => hfront t (List.mem_cons_of_mem _ ht)⟩

/-- Reading from `r` to `s`: no problem is forgotten, and if none is met then the tokens that were
read are as `P` says. -/
structure Consumes (r s : Reader) (P : List Token.Kind → Prop) : Prop where
  found_le : r.found ≤ s.found
  used : s.found = r.found → Closed r.rest →
    ∃ used, r.rest = used ++ s.rest ∧ P (used.map Token.kind) ∧ Closed s.rest

namespace Consumes

variable {r s : Reader} {P : List Token.Kind → Prop}

theorem mono {Q : List Token.Kind → Prop} (h : Consumes r s P) (hPQ : ∀ ks, P ks → Q ks) :
    Consumes r s Q := by
  refine ⟨h.found_le, fun hfound hclosed => ?_⟩
  obtain ⟨used, hrest, hP, hs⟩ := h.used hfound hclosed
  exact ⟨used, hrest, hPQ _ hP, hs⟩

theorem trans {t : Reader} {Q R : List Token.Kind → Prop} (h : Consumes r s P)
    (h' : Consumes s t Q) (hR : ∀ ks ks', P ks → Q ks' → R (ks ++ ks')) : Consumes r t R := by
  refine ⟨Nat.le_trans h.found_le h'.found_le, fun hfound hclosed => ?_⟩
  -- Problems only become more, so that none was met on either part of the way.
  have hle := h.found_le
  have hle' := h'.found_le
  obtain ⟨used, hrest, hP, hs⟩ := h.used (by omega) hclosed
  obtain ⟨used', hrest', hQ, ht⟩ := h'.used (by omega) hs
  exact ⟨used ++ used', by simp [hrest, hrest'], by simpa using hR _ _ hP hQ, ht⟩

theorem refl (hrest : s.rest = r.rest) (hfound : s.found = r.found) (hP : P []) : Consumes r s P :=
  ⟨Nat.le_of_eq hfound.symm, fun _ hclosed => ⟨[], by simp [hrest], hP, hrest ▸ hclosed⟩⟩

theorem of_lt (h : r.found < s.found) : Consumes r s P :=
  ⟨Nat.le_of_lt h, fun hfound => absurd hfound (Nat.ne_of_gt h)⟩

theorem advance {t : Token} {rest : List Token} (hrest : r.rest = t :: rest) (ht : t.kind ≠ .eof)
    (hP : P [t.kind]) :
    Consumes r (r.advance t rest) P := by
  refine ⟨Nat.le_refl _, fun _ hclosed => ⟨[t], hrest, hP, ?_⟩⟩
  rw [hrest] at hclosed
  exact hclosed.tail ht

theorem of_advance {t : Token} {rest : List Token} {k : Token.Kind}
    (h : Consumes (r.advance t rest) s fun ks => P (k :: ks)) (hrest : r.rest = t :: rest)
    (ht : t.kind = k) (hk : k ≠ .eof) : Consumes r s P :=
  (advance (P := (· = [k])) hrest (ht ▸ hk) (by rw [ht])).trans h fun ks ks' hks hks' => by
    simpa [hks] using hks'

theorem number (h : Consumes r s P) : Consumes r s.number.2 P :=
  ⟨h.found_le, h.used⟩

theorem of_number (h : Consumes r.number.2 s P) : Consumes r s P :=
  ⟨h.found_le, h.used⟩

end Consumes

theorem eat_consumes {mark : Punct} (h : r.eat mark = some s) :
    Consumes r s (· = [.punct mark]) := by
  unfold eat at h
  split at h
  · next t rest hrest =>
    split at h
    · next hkind =>
      obtain rfl : r.advance t rest = s := by simpa using h
      exact .advance hrest (by simp [hkind]) (by simp [hkind])
    · simp at h
  · simp at h

theorem expect_consumes (r : Reader) (mark : Punct) :
    Consumes r (r.expect mark) (· = [.punct mark]) := by
  unfold expect
  split
  · next h => exact eat_consumes h
  · exact .of_lt (by simp)

/-! ## Expressions -/

theorem isHexDigit_iff (c : Char) :
    isHexDigit c = true ↔ c ∈ "0123456789abcdefABCDEF".toList := by
  -- Everything is brought down to code points, where it is arithmetic.
  have heq (d : Char) : c = d ↔ c.toNat = d.toNat := by
    rw [← Char.val_inj, ← UInt32.toNat_inj]
    rfl
  have hle (a b : Char) : a ≤ b ↔ a.toNat ≤ b.toNat := by
    rw [Char.le_def, UInt32.le_iff_toNat_le]
    rfl
  have hdigit : c.isDigit = true ↔ 48 ≤ c.toNat ∧ c.toNat ≤ 57 := by
    simp only [Char.isDigit, Bool.and_eq_true, decide_eq_true_eq, ge_iff_le, UInt32.le_iff_toNat_le]
    rfl
  have hlist : "0123456789abcdefABCDEF".toList =
      ['0', '1', '2', '3', '4', '5', '6', '7', '8', '9', 'a', 'b', 'c', 'd', 'e', 'f',
        'A', 'B', 'C', 'D', 'E', 'F'] := by decide
  simp only [isHexDigit, Bool.or_eq_true, Bool.and_eq_true, decide_eq_true_eq, hdigit, hle, hlist,
    List.mem_cons, List.not_mem_nil, heq, or_false]
  simp only [Char.reduceToNat]
  omega

theorem isColor_iff (digits : String) : isColor digits = true ↔ Grammar.SixHexDigits digits := by
  simp [isColor, Grammar.SixHexDigits, isHexDigit_iff]

theorem peek_of_rest (h : r.rest = t :: rest) : r.peek = t := by
  simp [peek, h]

theorem bump_of_rest (h : r.rest = t :: rest) (ht : t.kind ≠ .eof) : r.bump = r.advance t rest := by
  simp [bump, h, ht]

@[simp]
theorem found_bump (r : Reader) : r.bump.found = r.found := by
  unfold bump
  split <;> split <;> rfl

@[simp]
theorem found_literal (r : Reader) (span : Span) (v : Literal) :
    (r.literal span v).2.found = r.found := rfl

@[simp]
theorem found_reference (r : Reader) (span : Span) (name : String) :
    (r.reference span name).2.found = r.found := rfl

theorem found_le_value (r : Reader) : r.found ≤ r.value.2.found := by
  simp only [value]
  split
  case h_8 => split <;> simp
  all_goals simp

theorem value_of_grammar (hrest : r.rest = t :: rest) {e : Expr} (h : Grammar.Value t.kind e) :
    r.value.1.bare = e ∧ r.value.2.rest = rest ∧ r.value.2.found = r.found := by
  have hbump := bump_of_rest hrest h.ne_eof
  simp only [value, peek_of_rest hrest, hbump]
  cases hkind : t.kind <;> rw [hkind] at h <;> cases h <;>
    simp_all [Expr.bare, Expr.relabel, literal, reference, Reader.number, Grammar.literal,
      isColor_iff, found, advance]

/-- A value that is read without a problem is one of the grammar's. -/
theorem exists_value_of_found (hrest : r.rest = t :: rest) (h : r.value.2.found = r.found) :
    ∃ e, Grammar.Value t.kind e := by
  simp only [value, peek_of_rest hrest] at h
  cases hkind : t.kind with
  | pixel n => exact ⟨_, .pixel n⟩
  | percentage n => exact ⟨_, .percentage n⟩
  | scalar n => exact ⟨_, .scalar n⟩
  | bool b => exact ⟨_, .bool b⟩
  | capital name => exact ⟨_, .variable name⟩
  | hash digits =>
    cases hcolor : isColor digits with
    | true => exact ⟨_, .color ((isColor_iff digits).1 hcolor)⟩
    | false => simp [hkind, hcolor] at h
  | _ => simp [hkind] at h

theorem value_consumes (r : Reader) :
    Consumes r r.value.2 fun ks => ∃ k, ks = [k] ∧ Grammar.Value k r.value.1.bare := by
  refine ⟨r.found_le_value, fun hfound hclosed => ?_⟩
  obtain ⟨t, rest, hrest⟩ := hclosed.exists_cons
  obtain ⟨e, he⟩ := exists_value_of_found hrest hfound
  obtain ⟨hbare, hrest', -⟩ := value_of_grammar hrest he
  rw [hrest] at hclosed
  exact ⟨[t], by rw [hrest, hrest']; rfl, ⟨t.kind, rfl, hbare ▸ he⟩,
    hrest' ▸ hclosed.tail he.ne_eof⟩

/-! ## Products and sums -/

theorem operation_consumes {P : List Token.Kind → Prop} (op : Operator) (lhs rhs : Expr)
    (h : Consumes r s P) : Consumes r (s.operation op lhs rhs).2 P :=
  h.number

theorem factors_consumes (lhs : Expr) (r : Reader) :
    Consumes r (factors lhs r).2 fun ks =>
      ∀ before, Grammar.Term before lhs.bare →
        Grammar.Term (before ++ ks) (factors lhs r).1.bare := by
  fun_induction factors lhs r with
  | case1 lhs r heat => exact .refl rfl rfl fun before h => by simpa using h
  | case2 lhs r r' heat hlt rhs product ih =>
    -- One turn of the loop reads a star and a value, which become part of the term before them.
    have hfactor := (eat_consumes heat).trans (R := fun ks => ∃ k, ks = [.punct .star, k] ∧
      Grammar.Value k rhs.1.bare) (operation_consumes .multiply lhs rhs.1 (value_consumes r'))
      fun ks ks' hks hfactor => by
        obtain ⟨k, hk, hvalue⟩ := hfactor
        exact ⟨k, by simp [hks, hk], hvalue⟩
    refine hfactor.trans ih fun ks ks' hks hrest before hbefore => ?_
    obtain ⟨k, rfl, hvalue⟩ := hks
    simpa using hrest _ (.times hbefore hvalue)

theorem product_consumes (r : Reader) :
    Consumes r r.product.2 fun ks => Grammar.Term ks r.product.1.bare := by
  refine (value_consumes r).trans (factors_consumes r.value.1 r.value.2) fun ks ks' hks hrest => ?_
  obtain ⟨k, rfl, hvalue⟩ := hks
  exact hrest [k] (.value hvalue)

theorem eatSum_consumes {op : Operator} (h : r.eatSum = some (op, s)) :
    Consumes r s fun ks => ∃ mark, ks = [.punct mark] ∧ Grammar.SumMark mark op := by
  unfold eatSum at h
  split at h
  · next hplus =>
    obtain ⟨rfl, rfl⟩ : Operator.add = op ∧ _ = s := by simpa using h
    exact (eat_consumes hplus).mono fun ks hks => ⟨_, hks, .plus⟩
  · simp only [Option.map_eq_some_iff, Prod.mk.injEq] at h
    obtain ⟨s', hminus, rfl, rfl⟩ := h
    exact (eat_consumes hminus).mono fun ks hks => ⟨_, hks, .minus⟩

theorem terms_consumes (lhs : Expr) (r : Reader) :
    Consumes r (terms lhs r).2 fun ks =>
      ∀ before, Grammar.Sum before lhs.bare → Grammar.Sum (before ++ ks) (terms lhs r).1.bare := by
  fun_induction terms lhs r with
  | case1 lhs r heat => exact .refl rfl rfl fun before h => by simpa using h
  | case2 lhs r op r' heat hlt rhs sum ih =>
    -- One turn of the loop reads a mark and a term, which become part of the sum before them.
    have hterm := (eatSum_consumes heat).trans (R := fun ks => ∃ mark ks', ks = .punct mark :: ks' ∧
      Grammar.SumMark mark op ∧ Grammar.Term ks' rhs.1.bare)
      (operation_consumes op lhs rhs.1 (product_consumes r'))
      fun ks ks' hmarks hterm => by
        obtain ⟨mark, hks, hmark⟩ := hmarks
        exact ⟨mark, ks', by simp [hks], hmark, hterm⟩
    refine hterm.trans ih fun ks ks' hks hrest before hbefore => ?_
    obtain ⟨mark, ks'', rfl, hmark, hterm⟩ := hks
    simpa using hrest _ (.operation hbefore hmark hterm)

theorem expr_consumes (r : Reader) :
    Consumes r r.expr.2 fun ks => Grammar.Sum ks r.expr.1.bare :=
  (product_consumes r).trans (terms_consumes r.product.1 r.product.2)
    fun ks _ hks hrest => hrest ks (.term hks)

/-! ## Statements -/

theorem expr_between (r : Reader) (first last : Punct) :
    Consumes r ((r.expect first).expr.2.expect last) fun ks =>
      ∃ ks', ks = .punct first :: (ks' ++ [.punct last]) ∧
        Grammar.Sum ks' (r.expect first).expr.1.bare := by
  have hvalue := (expect_consumes r first).trans (R := fun ks => ∃ ks', ks = .punct first :: ks' ∧
    Grammar.Sum ks' (r.expect first).expr.1.bare) (expr_consumes _)
    fun ks ks' hks hsum => ⟨ks', by simp [hks], hsum⟩
  refine hvalue.trans (expect_consumes _ last) fun ks ks' hks hlast => ?_
  obtain ⟨ks'', rfl, hsum⟩ := hks
  exact ⟨ks'', by simp [hlast], hsum⟩

theorem assignment_consumes (name : Ident) (r : Reader) :
    Consumes r (assignment name r).2 fun ks =>
      Grammar.Assign (.capital name.name :: ks) (assignment name r).1.bare := by
  refine (expr_between r .assign .semicolon).mono fun ks hks => ?_
  obtain ⟨ks', rfl, hsum⟩ := hks
  exact .mk name.name hsum

theorem declaration_consumes (property : Ident) (r : Reader) :
    Consumes r (declaration property r).2 fun ks =>
      Grammar.Member (.lower property.name :: ks) (declaration property r).1.bare := by
  refine (expr_between r .colon .semicolon).mono fun ks hks => ?_
  obtain ⟨ks', rfl, hsum⟩ := hks
  exact .declare property.name hsum

theorem condition_consumes (r : Reader) :
    Consumes r r.condition.2 fun ks => ∃ k, ks = [.punct .leftBracket, k, .punct .rightBracket] ∧
      Grammar.Value k r.condition.1.2.bare := by
  have hopen := (expect_consumes r.number.2 .leftBracket).of_number
  have hvalue := hopen.trans (R := fun ks => ∃ k, ks = [.punct .leftBracket, k] ∧
    Grammar.Value k r.condition.1.2.bare) (value_consumes _)
    fun ks ks' hks ⟨k, hk, hvalue⟩ => ⟨k, by simp [hks, hk], hvalue⟩
  refine hvalue.trans (expect_consumes _ .rightBracket) fun ks ks' hks hlast => ?_
  obtain ⟨k, rfl, hvalue⟩ := hks
  exact ⟨k, by simp [hlast], hvalue⟩

theorem eatElse_consumes {span : Span} (h : r.eatElse = some (span, s)) :
    Consumes r s (· = [.keyword .elseWord]) := by
  unfold eatElse at h
  split at h
  · next t rest hrest =>
    split at h
    · next hkind =>
      obtain ⟨-, rfl⟩ : t.span = span ∧ r.advance t rest = s := by simpa using h
      exact .advance hrest (by simp [hkind]) (by simp [hkind])
    · simp at h
  · simp at h

theorem closeBlock_consumes (opening : Span) (body : List Statement) (r : Reader) :
    Consumes r (closeBlock opening body r) fun ks => ks = [.punct .rightBrace] ∧ body ≠ [] := by
  have hclose := expect_consumes r .rightBrace
  unfold closeBlock
  split
  · -- An empty block is a problem.
    refine .of_lt (Nat.lt_of_le_of_lt hclose.found_le ?_)
    simp
  · next hbody => exact hclose.mono fun ks hks => ⟨hks, by simpa using hbody⟩

@[simp]
theorem found_toStatement (r : Reader) : r.toStatement.found = r.found := rfl

@[simp]
theorem found_toItem (r : Reader) : r.toItem.found = r.found := rfl

def StatementLead.kind? : StatementLead → Option Token.Kind
  | .property name => some (.lower name)
  | .variable name => some (.capital name)
  | .conditional => some (.keyword .ifWord)
  | _ => none

theorem StatementLead.eq_of_kind? {k : Token.Kind} (h : (of kind).kind? = some k) : kind = k := by
  unfold of at h
  split at h
  · simp [kind?] at h
  · split at h <;> simp [kind?] at h
  · simpa [kind?] using h
  · simpa [kind?] using h
  · simpa [kind?] using h
  · simp [kind?] at h

def MembersOrNone (ks : List Token.Kind) (body : List Statement) : Prop :=
  (ks = [] ∧ body = []) ∨ Grammar.Members ks (Statement.bareAll body)

theorem MembersOrNone.cons {ks ks' : List Token.Kind} {s : Statement} {body : List Statement}
    (hfirst : Grammar.Member ks s.bare) (hrest : MembersOrNone ks' body) :
    MembersOrNone (ks ++ ks') (s :: body) := by
  rcases hrest with ⟨rfl, rfl⟩ | hrest
  · rw [List.append_nil]
    exact .inr (.one hfirst)
  · exact .inr (.cons hfirst hrest)

mutual

theorem block_consumes (r : Reader) :
    Consumes r r.block.2 fun ks => Grammar.Block ks (Statement.bareAll r.block.1) := by
  have hlen := length_expect_le r .leftBrace
  have hbody := (expect_consumes r .leftBrace).trans (R := fun ks =>
    ∃ ks', ks = .punct .leftBrace :: ks' ∧ MembersOrNone ks' (r.expect .leftBrace).statements.1)
    (statements_consumes (r.expect .leftBrace))
    fun ks ks' hks hmembers => ⟨ks', by simp [hks], hmembers⟩
  -- What is closed without a problem is not empty, so that there are statements.
  rw [block_eq]
  refine hbody.trans (closeBlock_consumes ..) fun ks ks' hks hlast => ?_
  obtain ⟨ks'', rfl, hmembers⟩ := hks
  obtain ⟨rfl, hne⟩ := hlast
  exact .mk (hmembers.resolve_left fun h => hne h.2)
termination_by 3 * r.rest.length + 1

theorem conditional_consumes (start : Span) (r : Reader) :
    Consumes r (r.conditional start).2 fun ks =>
      Grammar.Member (.keyword .ifWord :: ks) (r.conditional start).1.bare := by
  have hlen := length_condition_le r
  have hlen' := length_block_le r.condition.2
  have hbody : Consumes r r.condition.2.block.2 fun ks => ∃ k ks',
      ks = .punct .leftBracket :: k :: .punct .rightBracket :: ks' ∧
      Grammar.Value k r.condition.1.2.bare ∧
      Grammar.Block ks' (Statement.bareAll r.condition.2.block.1) :=
    (condition_consumes r).trans (block_consumes r.condition.2)
      fun ks ks' ⟨k, hk, hvalue⟩ hblock => ⟨k, ks', by simp [hk], hvalue, hblock⟩
  rw [conditional_eq]
  dsimp only
  split
  · next helse =>
    refine hbody.mono fun ks hks => ?_
    obtain ⟨k, ks', rfl, hvalue, hblock⟩ := hks
    exact .ifThen hvalue hblock
  · next elseStart r' helse =>
    have hlt := length_lt_of_eatElse helse
    have halternative := (eatElse_consumes helse).trans (R := fun ks => ∃ ks', ks =
      .keyword .elseWord :: ks' ∧ Grammar.Block ks' (Statement.bareAll r'.block.1))
      (block_consumes r') fun ks ks' hks hblock => ⟨ks', by simp [hks], hblock⟩
    refine hbody.trans halternative fun ks ks' hks hks' => ?_
    obtain ⟨k, ks₁, rfl, hvalue, hblock⟩ := hks
    obtain ⟨ks₂, rfl, hother⟩ := hks'
    exact .ifElse hvalue hblock hother
termination_by 3 * r.rest.length + 2

theorem statements_consumes (r : Reader) :
    Consumes r r.statements.2 fun ks => MembersOrNone ks r.statements.1 := by
  rw [statements_eq]
  split
  · exact .refl rfl rfl (.inl ⟨rfl, rfl⟩)
  · next t rest hrest =>
    have hlen : r.rest.length = rest.length + 1 := by simp [hrest]
    dsimp only
    split
    · exact .refl rfl rfl (.inl ⟨rfl, rfl⟩)
    · next name hlead =>
      have hkind : t.kind = .lower name := StatementLead.eq_of_kind? (by rw [hlead]; rfl)
      have hfirst := declaration_consumes ⟨name, t.span⟩ (r.advance t rest)
      have hle : (declaration ⟨name, t.span⟩ (r.advance t rest)).2.rest.length ≤ rest.length :=
        length_declaration_le _ _
      exact (hfirst.of_advance hrest hkind (by simp)).trans (statements_consumes _)
        fun _ _ => MembersOrNone.cons
    · next name hlead =>
      have hkind : t.kind = .capital name := StatementLead.eq_of_kind? (by rw [hlead]; rfl)
      have hfirst := (assignment_consumes ⟨name, t.span⟩ (r.advance t rest)).mono fun ks hks =>
        Grammar.Member.assign hks
      have hle : (assignment ⟨name, t.span⟩ (r.advance t rest)).2.rest.length ≤ rest.length :=
        length_assignment_le _ _
      exact (hfirst.of_advance hrest hkind (by simp)).trans (statements_consumes _)
        fun _ _ => MembersOrNone.cons
    · next hlead =>
      have hkind : t.kind = .keyword .ifWord := StatementLead.eq_of_kind? (by rw [hlead]; rfl)
      have hfirst := conditional_consumes t.span (r.advance t rest)
      have hle : ((r.advance t rest).conditional t.span).2.rest.length ≤ rest.length :=
        (conditionalReads t.span (r.advance t rest)).2
      exact (hfirst.of_advance hrest hkind (by simp)).trans (statements_consumes _)
        fun _ _ => MembersOrNone.cons
    · next hlead =>
      have hlt := length_stray_statement_lt hrest hlead
      -- Tokens are skipped here, but only after a problem.
      have hmore := statements_consumes (r.report t.span (.statementExpected t.kind)).toStatement
      refine .of_lt (Nat.lt_of_lt_of_le ?_ hmore.found_le)
      simp
termination_by 3 * r.rest.length

end

/-! ## Sheets -/

theorem items_eq (r : Reader) :
    r.items =
      match r.rest with
      | [] => ([], r)
      | t :: rest =>
        match ItemLead.of t.kind with
        | .stop => ([], r)
        | .variable name =>
          let first := assignment ⟨name, t.span⟩ (r.advance t rest)
          (.assign first.1 :: first.2.items.1, first.2.items.2)
        | .selector selector =>
          let body := (r.advance t rest).block
          (.rule { selector, body := body.1, span := t.span.merge body.2.prevSpan } ::
            body.2.items.1, body.2.items.2)
        | .nothing => (r.report t.span (.itemExpected t.kind)).toItem.items := by
  rw [items]
  split
  · simp_all
  · split <;> simp_all

theorem ItemLead.kind_of_variable {name : String} (h : of kind = .variable name) :
    kind = .capital name := by
  unfold of at h
  split at h <;> simp_all

theorem ItemLead.select_of_selector {selector : Selector} (h : of kind = .selector selector) :
    Grammar.Select kind selector := by
  unfold of at h
  split at h <;> simp at h <;> subst h <;> constructor

theorem ItemLead.of_select {selector : Selector} (h : Grammar.Select kind selector) :
    of kind = .selector selector := by
  cases h <;> rfl

theorem ItemLead.kind_of_stop (h : of kind = .stop) : kind = .eof := by
  unfold of at h
  split at h <;> simp_all

/-- The tokens of some members of a sheet, or of none. -/
def ItemsOrNone (ks : List Token.Kind) (items : List Item) : Prop :=
  (ks = [] ∧ items = []) ∨ Grammar.Items ks (items.map Item.bare)

theorem ItemsOrNone.cons {ks ks' : List Token.Kind} {i : Item} {items : List Item}
    (hfirst : Grammar.Item ks i.bare) (hrest : ItemsOrNone ks' items) :
    ItemsOrNone (ks ++ ks') (i :: items) := by
  rcases hrest with ⟨rfl, rfl⟩ | hrest
  · rw [List.append_nil]
    exact .inr (.one hfirst)
  · exact .inr (.cons hfirst hrest)

theorem items_consumes (r : Reader) :
    Consumes r r.items.2 fun ks => ItemsOrNone ks r.items.1 := by
  rw [items_eq]
  split
  · exact .refl rfl rfl (.inl ⟨rfl, rfl⟩)
  · next t rest hrest =>
    have hlen : r.rest.length = rest.length + 1 := by simp [hrest]
    split
    · exact .refl rfl rfl (.inl ⟨rfl, rfl⟩)
    · next name hlead =>
      have hkind := ItemLead.kind_of_variable hlead
      have hfirst := (assignment_consumes ⟨name, t.span⟩ (r.advance t rest)).mono fun ks hks =>
        Grammar.Item.assign hks
      have hle : (assignment ⟨name, t.span⟩ (r.advance t rest)).2.rest.length ≤ rest.length :=
        length_assignment_le _ _
      exact (hfirst.of_advance hrest hkind (by simp)).trans (items_consumes _)
        fun _ _ => ItemsOrNone.cons
    · next selector hlead =>
      have hselect := ItemLead.select_of_selector hlead
      have hfirst := (block_consumes (r.advance t rest)).mono fun ks hks =>
        Grammar.Item.rule hselect hks
      have hle : (r.advance t rest).block.2.rest.length ≤ rest.length := length_block_le _
      exact (hfirst.of_advance hrest rfl hselect.ne_eof).trans (items_consumes _)
        fun _ _ => ItemsOrNone.cons
    · next hlead =>
      have hlt := length_stray_item_lt hrest hlead
      -- Tokens are skipped here, but only after a problem.
      have hmore := items_consumes (r.report t.span (.itemExpected t.kind)).toItem
      refine .of_lt (Nat.lt_of_lt_of_le ?_ hmore.found_le)
      simp
termination_by r.rest.length

/-- Reading members goes on to the end of the source. -/
theorem items_stops (r : Reader) :
    r.items.2.rest = [] ∨ ∃ t rest, r.items.2.rest = t :: rest ∧ t.kind = .eof := by
  rw [items_eq]
  split
  · next hrest => exact .inl hrest
  · next t rest hrest =>
    have hlen : r.rest.length = rest.length + 1 := by simp [hrest]
    split
    · next hlead => exact .inr ⟨t, rest, hrest, ItemLead.kind_of_stop hlead⟩
    · next name hlead =>
      have hle : (assignment ⟨name, t.span⟩ (r.advance t rest)).2.rest.length ≤ rest.length :=
        length_assignment_le _ _
      exact items_stops _
    · next selector hlead =>
      have hle : (r.advance t rest).block.2.rest.length ≤ rest.length := length_block_le _
      exact items_stops _
    · next hlead =>
      have hlt := length_stray_item_lt hrest hlead
      exact items_stops _
termination_by r.rest.length

theorem Closed.eq_nil (h : Closed (t :: rest)) (ht : t.kind = .eof) : rest = [] := by
  obtain ⟨front, last, heq, -, hfront⟩ := h
  cases front with
  | nil => simpa using (List.cons.inj heq).2
  | cons first front =>
    obtain rfl : t = first := (List.cons.inj heq).1
    exact absurd ht (hfront t List.mem_cons_self)

/-- A sheet that is read without problems is derived from the tokens before the end. -/
theorem sheet_sound {body : List Token} {last : Token} (hbody : ∀ t ∈ body, t.kind ≠ .eof)
    (hlast : last.kind = .eof) (h : (start (body ++ [last]) []).sheet.2.diagnostics = []) :
    Grammar.Sheet (body.map Token.kind) (start (body ++ [last]) []).sheet.1.bare := by
  have hclosed : Closed (start (body ++ [last]) []).rest := ⟨body, last, rfl, hlast, hbody⟩
  obtain ⟨hempty, hfound⟩ : (start (body ++ [last]) []).items.1 ≠ [] ∧
      (start (body ++ [last]) []).items.2.diagnostics = [] := by
    simp only [sheet] at h
    split at h
    · simp [report] at h
    · next hcond =>
      simp only [h, List.isEmpty_nil, Bool.and_true, List.isEmpty_iff] at hcond
      exact ⟨hcond, h⟩
  obtain ⟨used, hused, hitems, hrest⟩ := (items_consumes _).used
    (by simp only [found, hfound]; rfl) hclosed
  -- The reader has stopped in front of the end, so it has read all of the body.
  have hend : ∃ t, (start (body ++ [last]) []).items.2.rest = [t] := by
    rcases items_stops (start (body ++ [last]) []) with hnil | ⟨t, rest, hcons, ht⟩
    · obtain ⟨t, rest, hcons⟩ := hrest.exists_cons
      simp [hnil] at hcons
    · rw [hcons] at hrest
      exact ⟨t, by rw [hcons, hrest.eq_nil ht]⟩
  obtain ⟨t, ht⟩ := hend
  obtain ⟨rfl, -⟩ : body = used ∧ [last] = [t] := by
    rw [ht] at hused
    exact List.append_inj' hused rfl
  exact hitems.resolve_left fun hnone => hempty hnone.2

end Reader

end TypedStyle
