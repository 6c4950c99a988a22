import TypedStyle.Proofs.Cursor
import TypedStyle.Proofs.ParserCompleteness

/-!
# Reading by position ends inside the list

On every list of tokens that is empty or has an end of the source somewhere, well formed or not, the
parser that works by position goes as the reader does. The reader's functions say how far each one
gets, so they also say how many steps are enough: every round of a loop leaves less to read.
-/

namespace TypedStyle

namespace Reader

variable {r : Reader}

/-- The reader behind tokens that it passed over. -/
def moveTo (r : Reader) (place : Option Token × List Token) : Reader :=
  { r with last := place.1, rest := place.2 }

theorem skipItem_end {depth : Nat} (h : r.peek.kind = .eof) :
    skipItem depth r.last r.rest = (r.last, r.rest) := by
  cases hrest : r.rest with
  | nil => rfl
  | cons t rest =>
    rw [peek_of_rest hrest] at h
    simp [skipItem, h]

theorem skipStatement_end (h : r.peek.kind = .eof ∨ r.peek.kind = .punct .rightBrace) :
    skipStatement 0 r.last r.rest = (r.last, r.rest) := by
  cases hrest : r.rest with
  | nil => rfl
  | cons t rest =>
    rw [peek_of_rest hrest] at h
    rcases h with h | h <;> simp [skipStatement, h]

/-- Passing over a braced part inside a statement is what passing over one outside is. -/
theorem skipStatement_succ (depth : Nat) (last : Option Token) (tokens : List Token) :
    skipStatement (depth + 1) last tokens =
      skipStatement 0 (skipItem (depth + 1) last tokens).1
        (skipItem (depth + 1) last tokens).2 := by
  induction tokens generalizing depth last with
  | nil => rfl
  | cons t rest ih =>
    cases hkind : t.kind with
    | punct mark =>
      cases mark with
      | rightBrace =>
        cases depth with
        | zero => simp [skipStatement, skipItem, hkind]
        | succ depth => simpa [skipStatement, skipItem, hkind] using ih depth (some t)
      | _ => simpa [skipStatement, skipItem, hkind] using ih _ (some t)
    | eof => simp [skipStatement, skipItem, hkind]
    | _ => simpa [skipStatement, skipItem, hkind] using ih _ (some t)

theorem exists_of_eatElse {s : Reader} {span : Span} (h : r.eatElse = some (span, s)) :
    ∃ t rest, r.rest = t :: rest ∧ t.kind = .keyword .elseWord ∧ t.span = span ∧
      r.advance t rest = s := by
  unfold eatElse at h
  split at h
  · next t rest hrest =>
    split at h
    · next hkind =>
      cases h
      exact ⟨t, rest, hrest, hkind, rfl, rfl⟩
    · cases h
  · cases h

theorem StatementLead.kind_of_stop {kind : Token.Kind} (h : of kind = .stop) :
    kind = .punct .rightBrace ∨ kind = .eof := by
  unfold of at h
  split at h
  · exact .inr rfl
  · split at h
    · next hmark => exact .inl (congrArg _ hmark)
    · cases h
  all_goals cases h

end Reader

namespace Cursor

variable {ts : List Token} {r s : Reader} {t : Token} {rest : List Token} {steps : Nat}
  {name : String}

/-! ## The token in view -/

theorem follows_peek_of_rest (h : r.rest = t :: rest) : Follows ts peek r t r := by
  have hpeek : Follows ts peek r r.peek r := follows_peek r
  rwa [Reader.peek_of_rest h] at hpeek

theorem follows_bump_of_rest (h : r.rest = t :: rest) (ht : t.kind ≠ .eof) :
    Follows ts bump r t (r.advance t rest) := by
  have hbump : Follows ts bump r r.peek r.bump := follows_bump r
  rwa [Reader.bump_of_rest h ht, Reader.peek_of_rest h] at hbump

theorem follows_reportHere_of_rest (h : r.rest = t :: rest) (p : Problem) :
    Follows ts (reportHere p) r () (r.report t.span p) := by
  rw [← Reader.peek_of_rest h]
  exact follows_reportHere r p

/-! ## Expressions -/

theorem follows_color (r : Reader) (digits : String) :
    Follows ts (value.color digits) r ()
      (if Reader.isColor digits then r else r.reportPrev (.badColor digits)) := by
  unfold value.color
  split
  · exact .pure () r
  · exact follows_reportPrev r _

theorem follows_literal (r : Reader) (span : Span) (v : Literal) :
    Follows ts (do return .literal (← fresh) span v) r (r.literal span v).1 (r.literal span v).2 :=
  (follows_fresh r).bind (.pure _ _)

theorem follows_value (r : Reader) : Follows ts value r r.value.1 r.value.2 := by
  have hbump : Follows ts bump r r.peek r.bump := follows_bump r
  refine (follows_peek r).bind ?_
  simp only [Reader.value]
  cases hkind : r.peek.kind with
  | punct mark =>
    exact (follows_reportHere r _).bind ((follows_fresh _).bind ((follows_peek _).bind (.pure _ _)))
  | eof =>
    exact (follows_reportHere r _).bind ((follows_fresh _).bind ((follows_peek _).bind (.pure _ _)))
  | capital name =>
    refine hbump.bind ?_
    simp only [hkind]
    exact (follows_fresh _).bind (.pure _ _)
  | hash digits =>
    refine hbump.bind ?_
    simp only [hkind]
    exact (follows_color r.bump digits).bind (follows_literal _ _ _)
  | lower _ | dotted _ | keyword _ =>
    refine hbump.bind ?_
    simp only [hkind]
    exact (follows_reportPrev _ _).bind (follows_literal _ _ _)
  | _ =>
    refine hbump.bind ?_
    simp only [hkind]
    exact follows_literal _ _ _

theorem follows_operation (r : Reader) (op : Operator) (lhs rhs : Expr) :
    Follows ts (operation op lhs rhs) r (r.operation op lhs rhs).1 (r.operation op lhs rhs).2 :=
  (follows_fresh r).bind (.pure _ _)

theorem follows_factors (lhs : Expr) (h : r.rest.length < steps) :
    Follows ts (factors steps lhs) r (Reader.factors lhs r).1 (Reader.factors lhs r).2 := by
  induction steps generalizing r lhs with
  | zero => omega
  | succ steps ih =>
    cases hstar : r.eat .star with
    | none =>
      rw [Reader.factors_of_eat_none hstar]
      exact (follows_eat_none hstar).bind (.pure lhs r)
    | some s =>
      have hlt := Reader.length_lt_of_eat hstar
      have hvalue := Reader.length_value_le s
      rw [Reader.factors_of_eat hstar]
      refine (follows_eat_some hstar).bind ?_
      refine (follows_value s).bind ((follows_operation _ _ _ _).bind (ih _ ?_))
      rw [Reader.rest_operation]
      omega

theorem follows_product (h : r.rest.length < steps) :
    Follows ts (product steps) r r.product.1 r.product.2 := by
  have hvalue := Reader.length_value_le r
  exact (follows_value r).bind (follows_factors _ (by omega))

theorem follows_eatSum_some {op : Operator} (h : r.eatSum = some (op, s)) :
    Follows ts eatSum r (some op) s := by
  unfold Reader.eatSum at h
  split at h
  · next hplus =>
    cases h
    exact (follows_eat_some hplus).bind (.pure _ s)
  · next hplus =>
    obtain ⟨s', hminus, hsum⟩ := Option.map_eq_some_iff.1 h
    cases hsum
    exact (follows_eat_none hplus).bind ((follows_eat_some hminus).bind (.pure _ s))

theorem follows_eatSum_none (h : r.eatSum = none) : Follows ts eatSum r none r := by
  unfold Reader.eatSum at h
  split at h
  · cases h
  · next hplus =>
    have hminus := Option.map_eq_none_iff.1 h
    exact (follows_eat_none hplus).bind ((follows_eat_none hminus).bind (.pure none r))

theorem follows_terms (lhs : Expr) (h : r.rest.length < steps) :
    Follows ts (terms steps lhs) r (Reader.terms lhs r).1 (Reader.terms lhs r).2 := by
  induction steps generalizing r lhs with
  | zero => omega
  | succ steps ih =>
    cases hsum : r.eatSum with
    | none =>
      rw [Reader.terms_of_eatSum_none hsum]
      exact (follows_eatSum_none hsum).bind (.pure lhs r)
    | some found =>
      obtain ⟨op, s⟩ := found
      have hlt := Reader.length_lt_of_eatSum hsum
      have hproduct := Reader.length_product_le s
      rw [Reader.terms_of_eatSum hsum]
      refine (follows_eatSum_some hsum).bind ?_
      refine (follows_product (by omega)).bind ((follows_operation _ _ _ _).bind (ih _ ?_))
      rw [Reader.rest_operation]
      omega

theorem follows_expr (h : r.rest.length < steps) : Follows ts (expr steps) r r.expr.1 r.expr.2 := by
  have hproduct := Reader.length_product_le r
  exact (follows_product h).bind (follows_terms _ (by omega))

theorem follows_exprs (steps n : Nat) (h : r.rest.length < steps) :
    Follows ts (exprs steps n) r (Reader.exprs n r).1 (Reader.exprs n r).2 := by
  induction n generalizing r with
  | zero => exact .pure [] r
  | succ n ih =>
    have hexpr := Reader.length_expr_le r
    exact (follows_expr h).bind ((ih (by omega)).bind (.pure _ _))

/-! ## Recovery -/

theorem follows_skipBraced {depth : Nat} (h : r.rest.length < steps)
    (hdepth : 0 < depth ∨ r.peek.kind = .punct .leftBrace) :
    Follows ts (skipBraced steps depth) r ()
      (r.moveTo (Reader.skipItem depth r.last r.rest)) := by
  induction steps generalizing r depth with
  | zero => omega
  | succ steps ih =>
    refine .of_views fun c hc => .ite_sees (fun hkind => ?_) fun hkind => ?_
    · rw [Reader.skipItem_end hkind]
      exact .pure () r
    · obtain ⟨rest, hrest⟩ := hc.exists_rest hkind
      have hlen : r.rest.length = rest.length + 1 := by rw [hrest, List.length_cons]
      -- Outside of all braces there is only the one that opens the part.
      have hinside (hbrace : r.peek.kind ≠ .punct .leftBrace) : ∃ d, depth = d + 1 :=
        Nat.exists_eq_add_one_of_ne_zero (Nat.ne_of_gt (hdepth.resolve_right hbrace))
      -- The rest is passed over from behind the token in view.
      have hon (d : Nat) (hd : 0 < d) :
          Follows ts (skipBraced steps d) (r.advance r.peek rest) ()
            (r.moveTo (Reader.skipItem d (some r.peek) rest)) :=
        ih (r := r.advance r.peek rest) (by rw [Reader.rest_advance]; omega) (.inl hd)
      refine (follows_bump_of_rest hrest hkind).bind ?_
      rw [hrest]
      cases hpeek : r.peek.kind with
      | eof => exact absurd hpeek hkind
      | punct mark =>
        cases mark with
        | leftBrace => simpa [Reader.skipItem, hpeek] using hon (depth + 1) (by omega)
        | rightBrace =>
          obtain ⟨depth, rfl⟩ := hinside (by simp [hpeek])
          cases depth with
          | zero =>
            have hstop : Follows ts (pure ()) (r.advance r.peek rest) ()
                (r.moveTo (some r.peek, rest)) := .pure () _
            simpa [Reader.skipItem, hpeek] using hstop
          | succ depth => simpa [Reader.skipItem, hpeek] using hon (depth + 1) (by omega)
        | _ =>
          obtain ⟨depth, rfl⟩ := hinside (by simp [hpeek])
          simpa [Reader.skipItem, hpeek] using hon (depth + 1) (by omega)
      | _ =>
        obtain ⟨depth, rfl⟩ := hinside (by simp [hpeek])
        simpa [Reader.skipItem, hpeek] using hon (depth + 1) (by omega)

/-- Every token that is passed over takes a step, and a braced part one for itself. -/
theorem follows_toItem (h : r.rest.length + 1 < steps) :
    Follows ts (toItem steps) r () r.toItem := by
  change Follows ts _ r () (r.moveTo (Reader.skipItem 0 r.last r.rest))
  induction steps generalizing r with
  | zero => omega
  | succ steps ih =>
    refine .of_views fun c hc => .ite_sees (fun hkind => ?_) fun hkind => .ite_sees ?_ ?_
    · rw [Reader.skipItem_end hkind]
      exact .pure () r
    · intro hbrace
      exact follows_skipBraced (by omega) (.inr hbrace)
    · intro hbrace
      obtain ⟨rest, hrest⟩ := hc.exists_rest hkind
      have hlen : r.rest.length = rest.length + 1 := by rw [hrest, List.length_cons]
      have hon : Follows ts (toItem steps) (r.advance r.peek rest) ()
          (r.moveTo (Reader.skipItem 0 (some r.peek) rest)) :=
        ih (r := r.advance r.peek rest) (by rw [Reader.rest_advance]; omega)
      have hstop : Follows ts (pure ()) (r.advance r.peek rest) ()
          (r.moveTo (some r.peek, rest)) := .pure () _
      refine (follows_bump_of_rest hrest hkind).bind ?_
      rw [hrest]
      cases hpeek : r.peek.kind with
      | eof => exact absurd hpeek hkind
      | punct mark =>
        cases mark with
        | leftBrace => exact absurd hpeek hbrace
        | semicolon | rightBrace => simpa [Reader.skipItem, hpeek] using hstop
        | _ => simpa [Reader.skipItem, hpeek] using hon
      | _ => simpa [Reader.skipItem, hpeek] using hon

theorem follows_toStatement (h : r.rest.length + 1 < steps) :
    Follows ts (toStatement steps) r () r.toStatement := by
  change Follows ts _ r () (r.moveTo (Reader.skipStatement 0 r.last r.rest))
  induction steps generalizing r with
  | zero => omega
  | succ steps ih =>
    refine .of_views fun c hc => (follows_sees r _).bind ((follows_sees r _).bind ?_)
    by_cases hend : r.peek.kind = .eof ∨ r.peek.kind = .punct .rightBrace
    · rw [if_pos (by simpa using hend), Reader.skipStatement_end hend]
      exact .pure () r
    · rw [if_neg (by simpa using hend)]
      rw [not_or] at hend
      obtain ⟨rest, hrest⟩ := hc.exists_rest hend.1
      have hlen : r.rest.length = rest.length + 1 := by rw [hrest, List.length_cons]
      refine .ite_sees (fun hbrace => ?_) fun hbrace => ?_
      · -- What comes behind the braced part is passed over from there.
        have hlt := Reader.length_skipItem_lt r.last rest hend.1
        have hskip : Reader.skipStatement 0 r.last r.rest =
            Reader.skipStatement 0 (Reader.skipItem 0 r.last r.rest).1
              (Reader.skipItem 0 r.last r.rest).2 := by
          have hopen : Reader.skipItem 0 r.last r.rest = Reader.skipItem 1 (some r.peek) rest := by
            simp [Reader.skipItem, hrest, hbrace]
          rw [hopen, ← Reader.skipStatement_succ 0 (some r.peek) rest]
          simp [Reader.skipStatement, hrest, hbrace]
        rw [hskip]
        refine (follows_skipBraced (by omega) (.inr hbrace)).bind ?_
        refine ih (r := r.moveTo (Reader.skipItem 0 r.last r.rest)) ?_
        rw [← hrest] at hlt
        change (Reader.skipItem 0 r.last r.rest).2.length + 1 < steps
        omega
      · have hon : Follows ts (toStatement steps) (r.advance r.peek rest) ()
            (r.moveTo (Reader.skipStatement 0 (some r.peek) rest)) :=
          ih (r := r.advance r.peek rest) (by rw [Reader.rest_advance]; omega)
        have hstop : Follows ts (pure ()) (r.advance r.peek rest) ()
            (r.moveTo (some r.peek, rest)) := .pure () _
        refine (follows_bump_of_rest hrest hend.1).bind ?_
        rw [hrest]
        cases hpeek : r.peek.kind with
        | eof => exact absurd hpeek hend.1
        | punct mark =>
          cases mark with
          | leftBrace => exact absurd hpeek hbrace
          | rightBrace => exact absurd hpeek hend.2
          | semicolon => simpa [Reader.skipStatement, hpeek] using hstop
          | _ => simpa [Reader.skipStatement, hpeek] using hon
        | _ => simpa [Reader.skipStatement, hpeek] using hon

/-! ## Statements -/

theorem follows_property (hrest : r.rest = t :: rest) (hkind : t.kind = .lower name) :
    Follows ts property r ⟨name, t.span⟩ (r.advance t rest) := by
  refine (follows_bump_of_rest hrest (by simp [hkind])).bind ?_
  simp only [hkind]
  exact (follows_prevSpan _).bind (.pure _ _)

theorem follows_variableName (hrest : r.rest = t :: rest) (hkind : t.kind = .capital name) :
    Follows ts variableName r ⟨name, t.span⟩ (r.advance t rest) := by
  refine (follows_bump_of_rest hrest (by simp [hkind])).bind ?_
  simp only [hkind]
  exact (follows_prevSpan _).bind (.pure _ _)

theorem follows_declaration (hrest : r.rest = t :: rest) (hkind : t.kind = .lower name)
    (h : rest.length < steps) :
    Follows ts (declaration steps) r
      (Reader.declaration ⟨name, t.span⟩ (r.advance t rest)).1
      (Reader.declaration ⟨name, t.span⟩ (r.advance t rest)).2 := by
  have hle := Reader.length_expect_le (r.advance t rest) .colon
  rw [Reader.rest_advance] at hle
  refine (follows_peek_of_rest hrest).bind ((follows_property hrest hkind).bind ?_)
  refine .expect_bind fun _ => (follows_expr (by omega)).bind (.expect_bind fun _ => ?_)
  exact (follows_prevSpan _).bind (.pure _ _)

theorem follows_assignment (hrest : r.rest = t :: rest) (hkind : t.kind = .capital name)
    (h : rest.length < steps) :
    Follows ts (assignment steps) r
      (Reader.assignment ⟨name, t.span⟩ (r.advance t rest)).1
      (Reader.assignment ⟨name, t.span⟩ (r.advance t rest)).2 := by
  have hle := Reader.length_expect_le (r.advance t rest) .assign
  rw [Reader.rest_advance] at hle
  refine (follows_peek_of_rest hrest).bind ((follows_variableName hrest hkind).bind ?_)
  refine .expect_bind fun _ => (follows_expr (by omega)).bind (.expect_bind fun _ => ?_)
  exact (follows_prevSpan _).bind (.pure _ _)

theorem follows_closeBlock (opening : Span) (body : List Statement) (r : Reader) :
    Follows ts (do let _ ← expect .rightBrace; reportEmpty opening body; return body) r body
      (Reader.closeBlock opening body r) := by
  refine .expect_bind fun _ => ?_
  unfold reportEmpty Reader.closeBlock
  split
  · exact ((follows_prevSpan _).bind (follows_report _ _ _)).bind (.pure body _)
  · exact (Follows.pure () _).bind (.pure body _)

theorem follows_conditional_of (hrest : r.rest = t :: rest) (hkind : t.kind = .keyword .ifWord)
    (hblock : ∀ s : Reader, s.rest.length ≤ rest.length →
      Follows ts (block steps) s s.block.1 s.block.2) :
    Follows ts (conditional (steps + 1)) r ((r.advance t rest).conditional t.span).1
      ((r.advance t rest).conditional t.span).2 := by
  have hpeek := Reader.peek_of_rest hrest
  have hhead := Reader.length_condition_le (r.advance t rest)
  have hword : Follows ts (keyword .ifWord) r () (r.advance t rest) :=
    .ite_sees (fun _ => (follows_bump_of_rest hrest (by simp [hkind])).bind (.pure () _))
      fun hne => absurd (hpeek ▸ hkind) hne
  rw [Reader.rest_advance] at hhead
  simp only [Reader.conditional_eq, conditional]
  refine (follows_peek_of_rest hrest).bind (hword.bind ((follows_fresh _).bind ?_))
  refine .expect_bind fun _ => (follows_value _).bind (.expect_bind fun _ => ?_)
  refine (hblock (r.advance t rest).condition.2 hhead).bind ?_
  have hbody := Reader.length_block_le (r.advance t rest).condition.2
  cases helse : (r.advance t rest).condition.2.block.2.eatElse with
  | none =>
    refine .of_views fun c hc => .ite_sees (fun hsees => ?_) fun _ => ?_
    · obtain ⟨rest', hrest'⟩ := hc.exists_rest (by simp [hsees])
      simp [Reader.eatElse, hrest', hsees] at helse
    · exact (follows_prevSpan _).bind (.pure _ _)
  | some found =>
    obtain ⟨elseStart, s⟩ := found
    have hlt := Reader.length_lt_of_eatElse helse
    obtain ⟨t', rest', hrest', hkind', rfl, rfl⟩ := Reader.exists_of_eatElse helse
    have hpeek' := Reader.peek_of_rest hrest'
    refine .ite_sees (fun _ => ?_) fun hne => absurd (hpeek' ▸ hkind') hne
    refine (follows_bump_of_rest hrest' (by simp [hkind'])).bind ?_
    refine (hblock _ (by omega)).bind ((follows_prevSpan _).bind ?_)
    exact (follows_prevSpan _).bind (.pure _ _)

theorem follows_statement_of_nothing (hrest : r.rest = t :: rest)
    (hlead : Reader.StatementLead.of t.kind = .nothing) :
    Follows ts (statement (steps + 1)) r none
      (r.report t.span (.statementExpected t.kind)) := by
  have hreport : Follows ts (do reportHere (.statementExpected t.kind); return none) r
      (none : Option Statement) (r.report t.span (.statementExpected t.kind)) :=
    (follows_reportHere_of_rest hrest _).bind (.pure none _)
  refine (follows_peek_of_rest hrest).bind ?_
  cases hkind : t.kind with
  | lower | capital => simp [hkind, Reader.StatementLead.of] at hlead
  | keyword word =>
    cases word with
    | ifWord => simp [hkind, Reader.StatementLead.of] at hlead
    | elseWord => rwa [hkind] at hreport
  | _ => rwa [hkind] at hreport

theorem follows_statement_of_property (hrest : r.rest = t :: rest) (hkind : t.kind = .lower name)
    (h : rest.length < steps) :
    Follows ts (statement (steps + 1)) r
      (some (Reader.declaration ⟨name, t.span⟩ (r.advance t rest)).1)
      (Reader.declaration ⟨name, t.span⟩ (r.advance t rest)).2 := by
  refine (follows_peek_of_rest hrest).bind ?_
  rw [hkind]
  exact (follows_declaration hrest hkind h).bind (.pure _ _)

theorem follows_statement_of_variable (hrest : r.rest = t :: rest)
    (hkind : t.kind = .capital name) (h : rest.length < steps) :
    Follows ts (statement (steps + 1)) r
      (some (.assign (Reader.assignment ⟨name, t.span⟩ (r.advance t rest)).1))
      (Reader.assignment ⟨name, t.span⟩ (r.advance t rest)).2 := by
  refine (follows_peek_of_rest hrest).bind ?_
  rw [hkind]
  exact (follows_assignment hrest hkind h).bind (.pure _ _)

theorem follows_statement_of_conditional (hrest : r.rest = t :: rest)
    (hkind : t.kind = .keyword .ifWord)
    (hblock : ∀ s : Reader, s.rest.length ≤ rest.length →
      Follows ts (block steps) s s.block.1 s.block.2) :
    Follows ts (statement (steps + 2)) r
      (some ((r.advance t rest).conditional t.span).1)
      ((r.advance t rest).conditional t.span).2 := by
  refine (follows_peek_of_rest hrest).bind ?_
  rw [hkind]
  exact (follows_conditional_of hrest hkind hblock).bind (.pure _ _)

theorem follows_statements_cons {s' : Reader} {first : Statement} {more : List Statement}
    (hend : r.peek.kind ≠ .punct .rightBrace ∧ r.peek.kind ≠ .eof)
    (hfirst : Follows ts (statement steps) r (some first) s)
    (hmore : Follows ts (statements steps) s more s') :
    Follows ts (statements (steps + 1)) r (first :: more) s' := by
  refine (follows_sees r _).bind ((follows_sees r _).bind ?_)
  rw [if_neg (by simpa using hend)]
  exact hfirst.bind (hmore.bind (.pure _ _))

mutual

theorem follows_block :
    ∀ (steps : Nat) {r : Reader}, 4 * r.rest.length + 1 < steps →
      Follows ts (block steps) r r.block.1 r.block.2
  | 0, _, h => absurd h (Nat.not_lt_zero _)
  | steps + 1, r, h => by
    have hle := Reader.length_expect_le r .leftBrace
    rw [Reader.block_eq, block]
    refine (follows_peek r).bind (.expect_bind fun _ => ?_)
    exact (follows_statements steps (by omega)).bind (follows_closeBlock _ _ _)

/-- A nested block costs four steps, and the keyword in front of it pays for them. -/
theorem follows_statements :
    ∀ (steps : Nat) {r : Reader}, 4 * r.rest.length < steps →
      Follows ts (statements steps) r r.statements.1 r.statements.2
  | 0, _, h => absurd h (Nat.not_lt_zero _)
  | steps + 1, r, h => by
    refine .of_views fun c hc => ?_
    rw [Reader.statements_eq]
    split
    · next hrest =>
      refine (follows_sees r _).bind ((follows_sees r _).bind ?_)
      rw [if_pos (by simp [hc.peek_kind_of_nil hrest])]
      exact .pure [] r
    · next t rest hrest =>
      have hpeek := Reader.peek_of_rest hrest
      have hlen : r.rest.length = rest.length + 1 := by rw [hrest, List.length_cons]
      obtain ⟨steps, rfl⟩ : ∃ n, steps = n + 2 := ⟨steps - 2, by omega⟩
      split
      · next hlead =>
        refine (follows_sees r _).bind ((follows_sees r _).bind ?_)
        have hstop := Reader.StatementLead.kind_of_stop hlead
        rw [hpeek, if_pos (by simpa using hstop)]
        exact .pure [] r
      · next name hlead =>
        have hkind : t.kind = .lower name := Reader.StatementLead.eq_of_kind? (by rw [hlead]; rfl)
        have hle := Reader.length_declaration_le ⟨name, t.span⟩ (r.advance t rest)
        rw [Reader.rest_advance] at hle
        exact follows_statements_cons (by simp [hpeek, hkind])
          (follows_statement_of_property hrest hkind (by omega))
          (follows_statements _ (by omega))
      · next name hlead =>
        have hkind : t.kind = .capital name := Reader.StatementLead.eq_of_kind? (by rw [hlead]; rfl)
        have hle := Reader.length_assignment_le ⟨name, t.span⟩ (r.advance t rest)
        rw [Reader.rest_advance] at hle
        exact follows_statements_cons (by simp [hpeek, hkind])
          (follows_statement_of_variable hrest hkind (by omega))
          (follows_statements _ (by omega))
      · next hlead =>
        have hkind : t.kind = .keyword .ifWord :=
          Reader.StatementLead.eq_of_kind? (by rw [hlead]; rfl)
        have hle : ((r.advance t rest).conditional t.span).2.rest.length ≤ rest.length :=
          (Reader.conditionalReads t.span (r.advance t rest)).2
        exact follows_statements_cons (by simp [hpeek, hkind])
          (follows_statement_of_conditional hrest hkind fun s hs => follows_block steps (by omega))
          (follows_statements _ (by omega))
      · next hlead =>
        have hlt := Reader.length_stray_statement_lt hrest hlead
        refine (follows_sees r _).bind ((follows_sees r _).bind ?_)
        rw [hpeek, if_neg (by
          simpa using ⟨Reader.StatementLead.ne_close hlead, Reader.StatementLead.ne_eof hlead⟩)]
        refine (follows_statement_of_nothing hrest hlead).bind ?_
        refine (follows_toStatement (by rw [Reader.rest_report]; omega)).bind ?_
        exact follows_statements _ (by omega)

end

/-! ## Sheets -/

theorem follows_rule {found : Selector} (hrest : r.rest = t :: rest)
    (hselect : Grammar.Select t.kind found) (h : 4 * rest.length + 1 < steps) :
    Follows ts (rule steps) r
      ⟨found, (r.advance t rest).block.1, t.span.merge (r.advance t rest).block.2.prevSpan⟩
      (r.advance t rest).block.2 := by
  have hselector : Follows ts selector r found (r.advance t rest) := by
    refine (follows_bump_of_rest hrest hselect.ne_eof).bind ?_
    cases hkind : t.kind <;> rw [hkind] at hselect <;> cases hselect <;> exact .pure _ _
  refine (follows_peek_of_rest hrest).bind (hselector.bind ((follows_block steps h).bind ?_))
  exact (follows_prevSpan _).bind (.pure _ _)

theorem follows_item_of_nothing (hrest : r.rest = t :: rest)
    (hlead : Reader.ItemLead.of t.kind = .nothing) :
    Follows ts (item steps) r none (r.report t.span (.itemExpected t.kind)) := by
  have hreport : Follows ts (do reportHere (.itemExpected t.kind); return none) r
      (none : Option Item) (r.report t.span (.itemExpected t.kind)) :=
    (follows_reportHere_of_rest hrest _).bind (.pure none _)
  refine (follows_peek_of_rest hrest).bind ?_
  cases hkind : t.kind with
  | lower | capital | dotted | hash => simp [hkind, Reader.ItemLead.of] at hlead
  | _ => rwa [hkind] at hreport

theorem follows_item_of_variable (hrest : r.rest = t :: rest) (hkind : t.kind = .capital name)
    (h : rest.length < steps) :
    Follows ts (item steps) r
      (some (.assign (Reader.assignment ⟨name, t.span⟩ (r.advance t rest)).1))
      (Reader.assignment ⟨name, t.span⟩ (r.advance t rest)).2 := by
  refine (follows_peek_of_rest hrest).bind ?_
  rw [hkind]
  exact (follows_assignment hrest hkind h).bind (.pure _ _)

theorem follows_item_of_selector {found : Selector} (hrest : r.rest = t :: rest)
    (hselect : Grammar.Select t.kind found) (h : 4 * rest.length + 1 < steps) :
    Follows ts (item steps) r
      (some (.rule ⟨found, (r.advance t rest).block.1,
        t.span.merge (r.advance t rest).block.2.prevSpan⟩))
      (r.advance t rest).block.2 := by
  have hrule : Follows ts (rule steps) r _ _ := follows_rule hrest hselect h
  refine (follows_peek_of_rest hrest).bind ?_
  cases hkind : t.kind <;> rw [hkind] at hselect <;> cases hselect <;> exact hrule.bind (.pure _ _)

theorem follows_items_cons {s' : Reader} {first : Item} {more : List Item}
    (hend : r.peek.kind ≠ .eof) (hfirst : Follows ts (item steps) r (some first) s)
    (hmore : Follows ts (items steps) s more s') :
    Follows ts (items (steps + 1)) r (first :: more) s' :=
  .ite_sees (fun hkind => absurd hkind hend) fun _ => hfirst.bind (hmore.bind (.pure _ _))

theorem follows_items (h : 4 * r.rest.length < steps) :
    Follows ts (items steps) r r.items.1 r.items.2 := by
  induction steps generalizing r with
  | zero => omega
  | succ steps ih =>
    refine .of_views fun c hc => ?_
    rw [Reader.items_eq]
    split
    · next hrest =>
      exact .ite_sees (fun _ => .pure [] r) fun hne => absurd (hc.peek_kind_of_nil hrest) hne
    · next t rest hrest =>
      have hpeek := Reader.peek_of_rest hrest
      have hlen : r.rest.length = rest.length + 1 := by rw [hrest, List.length_cons]
      split
      · next hlead =>
        have hkind := Reader.ItemLead.kind_of_stop hlead
        exact .ite_sees (fun _ => .pure [] r) fun hne => absurd (hpeek ▸ hkind) hne
      · next name hlead =>
        have hkind := Reader.ItemLead.kind_of_variable hlead
        have hle := Reader.length_assignment_le ⟨name, t.span⟩ (r.advance t rest)
        rw [Reader.rest_advance] at hle
        exact follows_items_cons (by simp [hpeek, hkind])
          (follows_item_of_variable hrest hkind (by omega)) (ih (by omega))
      · next found hlead =>
        have hselect := Reader.ItemLead.select_of_selector hlead
        have hle := Reader.length_block_le (r.advance t rest)
        rw [Reader.rest_advance] at hle
        exact follows_items_cons (by simpa [hpeek] using hselect.ne_eof)
          (follows_item_of_selector hrest hselect (by omega)) (ih (by omega))
      · next hlead =>
        have hne := Reader.ItemLead.ne_eof hlead
        have hlt : (r.report t.span (.itemExpected t.kind)).toItem.rest.length < r.rest.length :=
          Reader.length_toItem_lt hrest hne
        refine .ite_sees (fun hkind => absurd (hpeek ▸ hkind) hne) fun _ => ?_
        refine (follows_item_of_nothing hrest hlead).bind ?_
        refine (follows_toItem (by rw [Reader.rest_report]; omega)).bind (ih (by omega))

theorem follows_sheet (h : 4 * r.rest.length < steps) :
    Follows ts (sheet steps) r r.sheet.1 r.sheet.2 := by
  have hreport : Follows ts (reportNoItems r.items.1) r.items.2 () r.sheet.2 := by
    intro c hc
    change ∃ c', StateT.run (if (r.items.1.isEmpty && c.diagnostics.isEmpty) = true then _ else _) c
      = _ ∧ _
    rw [hc.diagnostics]
    simp only [Reader.sheet]
    split
    · exact follows_reportHere _ _ c hc
    · exact Follows.pure () _ c hc
  exact (follows_items h).bind (hreport.bind (.pure _ _))

/-! ## Bounds -/

theorem views_start (h : ts = [] ∨ ∃ t ∈ ts, t.kind = .eof) (ds : List Diagnostic) :
    Views ts (start ts ds) (Reader.start ts ds) where
  tokens := rfl
  nextId := rfl
  diagnostics := rfl
  overrun := rfl
  stray := rfl
  split := ⟨[], rfl, rfl, rfl, by simp⟩
  ended := h

theorem Views.pos_le {c : Cursor} (h : Views ts c r) : c.pos ≤ Token.firstEnd ts := by
  obtain ⟨seen, hts, hpos, -, hseen⟩ := h.split
  rw [hts, Token.firstEnd_append hseen, hpos]
  omega

theorem Views.pos_eq {c : Cursor} (h : Views ts c r)
    (hend : r.rest = [] ∨ ∃ t rest, r.rest = t :: rest ∧ t.kind = .eof) :
    c.pos = Token.firstEnd ts ∧ r.rest = ts.drop (Token.firstEnd ts) := by
  obtain ⟨seen, hts, hpos, -, hseen⟩ := h.split
  have hzero : Token.firstEnd r.rest = 0 := by
    rcases hend with hrest | ⟨t, rest, hrest, hkind⟩
    · rw [hrest]
      rfl
    · simp [Token.firstEnd, hrest, List.findIdx_cons, hkind]
  have hfirst : Token.firstEnd ts = seen.length := by
    rw [hts, Token.firstEnd_append hseen, hzero, Nat.zero_add]
  exact ⟨hpos.trans hfirst.symm, by rw [hfirst, hts, List.drop_left]⟩

/-- On every list of tokens that is empty or says somewhere where the source ends, the parser that
works by position ends, never asks for a token outside of the list and never moves past the first
end. It reads the sheet that the reader reads, with the same problems, and stops at the first end.
So do any number of expressions, read from the start or behind the sheet. -/
theorem parses_in_bounds (ts : List Token) (ds : List Diagnostic) (steps : Nat)
    (hend : ts = [] ∨ ∃ t ∈ ts, t.kind = .eof) (hsteps : 4 * ts.length < steps) :
    ∃ c, (sheet steps).run (start ts ds) = .ok ((Reader.start ts ds).sheet.1, c) ∧
      c.pos = Token.firstEnd ts ∧
      c.diagnostics = (Reader.start ts ds).sheet.2.diagnostics ∧
      (Reader.start ts ds).sheet.2.rest = ts.drop (Token.firstEnd ts) ∧
      ∀ n,
        (∃ c', (exprs steps n).run (start ts ds) =
            .ok ((Reader.exprs n (Reader.start ts ds)).1, c') ∧ c'.pos ≤ Token.firstEnd ts) ∧
        ∃ c', (exprs steps n).run c =
            .ok ((Reader.exprs n (Reader.start ts ds).sheet.2).1, c') ∧
          c'.pos ≤ Token.firstEnd ts := by
  have hstart := views_start hend ds
  have hrest : (Reader.start ts ds).rest = ts := rfl
  obtain ⟨c, hrun, hviews⟩ := follows_sheet (by rwa [hrest]) _ hstart
  have hsheet : (Reader.start ts ds).sheet.2.rest = (Reader.start ts ds).items.2.rest := by
    simp only [Reader.sheet]
    split <;> rfl
  obtain ⟨hpos, hdrop⟩ := hviews.pos_eq (hsheet ▸ Reader.items_stops _)
  have hlen : (Reader.start ts ds).sheet.2.rest.length ≤ ts.length := by
    rw [hdrop, List.length_drop]
    omega
  refine ⟨c, hrun, hpos, hviews.diagnostics, hdrop, fun n => ⟨?_, ?_⟩⟩
  · obtain ⟨c', hexprs, hviews'⟩ := follows_exprs steps n (by rw [hrest]; omega) _ hstart
    exact ⟨c', hexprs, hviews'.pos_le⟩
  · obtain ⟨c', hexprs, hviews'⟩ := follows_exprs steps n (by omega) _ hviews
    exact ⟨c', hexprs, hviews'.pos_le⟩

/-- A stray brace, an unfinished rule, and more tokens behind the end. -/
def unfinished : List Token :=
  [⟨.punct .rightBrace, .zero⟩, ⟨.lower "a", .zero⟩, ⟨.punct .leftBrace, .zero⟩,
    ⟨.keyword .elseWord, .zero⟩, ⟨.eof, .zero⟩, ⟨.lower "b", .zero⟩]

theorem parses_in_bounds_unfinished :
    ∃ c, (sheet 25).run (start unfinished []) = .ok ((Reader.start unfinished []).sheet.1, c) ∧
      c.pos = 4 := by
  have hend : unfinished = [] ∨ ∃ t ∈ unfinished, t.kind = .eof := by decide
  obtain ⟨c, hrun, hpos, -⟩ := parses_in_bounds unfinished [] 25 hend (by decide)
  exact ⟨c, hrun, hpos⟩

/-- A list that does not say where the source ends is overrun. -/
example : (sheet 9).run (start [⟨.lower "a", .zero⟩] []) = .error .passed := by rfl

end Cursor

end TypedStyle
