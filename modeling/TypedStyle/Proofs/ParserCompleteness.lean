import TypedStyle.Proofs.ParserSoundness

/-!
# The parser reads every sheet of the grammar

In front of the tokens of a derivation, with a token after them that cannot prolong it, a reader
meets no problem and reads the tree of that derivation. With the soundness of reading this makes
the grammar the exact account of what is accepted, and a derivation unique.
-/

namespace TypedStyle

variable {ks : List Token.Kind}

theorem Grammar.Member.head {s : Statement} (h : Member ks s) :
    ∃ k ks', ks = k :: ks' ∧ k ≠ .keyword .elseWord := by
  cases h with
  | assign h =>
    cases h
    exact ⟨_, _, rfl, by simp⟩
  | _ => exact ⟨_, _, rfl, by simp⟩

theorem Grammar.Members.head {body : List Statement} (h : Members ks body) :
    ∃ k ks', ks = k :: ks' ∧ k ≠ .keyword .elseWord := by
  cases h with
  | one h => exact h.head
  | cons hfirst hrest =>
    obtain ⟨k, ks', rfl, hk⟩ := hfirst.head
    exact ⟨k, _, rfl, hk⟩

theorem Grammar.Members.isEmpty_bareAll {body : List Statement}
    (h : Members ks (Statement.bareAll body)) : body.isEmpty = false := by
  cases body with
  | nil => cases h
  | cons s rest => rfl

theorem Grammar.Items.ne_nil {items : List TypedStyle.Item} (h : Items ks items) : items ≠ [] := by
  cases h <;> simp

namespace Reader

variable {tokens rest : List Token} {k : Token.Kind} {ks : List Token.Kind} {r : Reader} {t : Token}
  {mark : Punct} {lhs e : Expr}

/-! ## In front of a derivation -/

/-- The tokens start with tokens of the given kinds, and `rest` follows. -/
def Spells (tokens : List Token) (ks : List Token.Kind) (rest : List Token) : Prop :=
  ∃ used, tokens = used ++ rest ∧ used.map Token.kind = ks

theorem Spells.of_cons (h : Spells tokens (k :: ks) rest) :
    ∃ t more, tokens = t :: more ∧ t.kind = k ∧ Spells more ks rest := by
  obtain ⟨used, rfl, hused⟩ := h
  obtain ⟨t, more, rfl, ht, hmore⟩ := List.map_eq_cons_iff.1 hused
  exact ⟨t, more ++ rest, rfl, ht, more, rfl, hmore⟩

theorem Spells.of_append {ks' : List Token.Kind} (h : Spells tokens (ks ++ ks') rest) :
    ∃ more, Spells tokens ks more ∧ Spells more ks' rest := by
  obtain ⟨used, rfl, hused⟩ := h
  obtain ⟨first, last, rfl, hfirst, hlast⟩ := List.map_eq_append_iff.1 hused
  exact ⟨last ++ rest, ⟨first, by simp, hfirst⟩, last, rfl, hlast⟩

theorem Spells.of_singleton (h : Spells tokens [k] rest) :
    ∃ t, tokens = t :: rest ∧ t.kind = k := by
  obtain ⟨t, more, rfl, ht, used, rfl, hused⟩ := h.of_cons
  obtain rfl := List.map_eq_nil_iff.1 hused
  exact ⟨t, rfl, ht⟩

theorem eat_of_rest (hrest : r.rest = t :: rest) (ht : t.kind = .punct mark) :
    r.eat mark = some (r.advance t rest) := by
  simp [eat, hrest, ht]

theorem eat_eq_none (hrest : r.rest = t :: rest) (ht : t.kind ≠ .punct mark) :
    r.eat mark = none := by
  simp [eat, hrest, ht]

theorem expect_of_rest (hrest : r.rest = t :: rest) (ht : t.kind = .punct mark) :
    r.expect mark = r.advance t rest := by
  simp [expect, eat_of_rest hrest ht]

theorem factors_of_eat {s : Reader} (h : r.eat .star = some s) :
    factors lhs r = factors (s.value.2.operation .multiply lhs s.value.1).1
      (s.value.2.operation .multiply lhs s.value.1).2 := by
  rw [factors]
  split <;> simp_all

theorem factors_of_eat_none (h : r.eat .star = none) : factors lhs r = (lhs, r) := by
  rw [factors]
  split <;> simp_all

theorem terms_of_eatSum {s : Reader} {op : Operator} (h : r.eatSum = some (op, s)) :
    terms lhs r = terms (s.product.2.operation op lhs s.product.1).1
      (s.product.2.operation op lhs s.product.1).2 := by
  rw [terms]
  split <;> simp_all

theorem terms_of_eatSum_none (h : r.eatSum = none) : terms lhs r = (lhs, r) := by
  rw [terms]
  split <;> simp_all

/-- In front of a term, its values are read up to the point where more factors may follow. -/
theorem product_reaches (h : Grammar.Term ks e) (hrest : Spells r.rest ks rest) :
    ∃ lhs s, r.product = factors lhs s ∧ lhs.bare = e ∧ s.rest = rest ∧ s.found = r.found := by
  induction h generalizing rest with
  | value h =>
    obtain ⟨t, ht, rfl⟩ := hrest.of_singleton
    obtain ⟨hbare, hvalue, hfound⟩ := value_of_grammar ht h
    exact ⟨r.value.1, r.value.2, rfl, hbare, hvalue, hfound⟩
  | @times ks k lhs rhs hlhs hrhs ih =>
    -- The derivation splits off the last factor, and the loop comes to it last.
    obtain ⟨more, hmore, htail⟩ := hrest.of_append
    obtain ⟨lhs', s, hproduct, rfl, rfl, hfound⟩ := ih hmore
    obtain ⟨star, more, hs, hstar, htail⟩ := htail.of_cons
    obtain ⟨t, rfl, rfl⟩ := htail.of_singleton
    obtain ⟨rfl, hvalue, hfound'⟩ := value_of_grammar (r := s.advance star (t :: rest)) rfl hrhs
    rw [hproduct, factors_of_eat (eat_of_rest hs hstar)]
    exact ⟨_, _, rfl, rfl, hvalue, hfound'.trans hfound⟩

theorem product_of_grammar (h : Grammar.Term ks e) (hrest : Spells r.rest ks (t :: rest))
    (ht : t.kind ≠ .punct .star) :
    r.product.1.bare = e ∧ r.product.2.rest = t :: rest ∧ r.product.2.found = r.found := by
  obtain ⟨lhs, s, hproduct, hbare, hs, hfound⟩ := product_reaches h hrest
  rw [hproduct, factors_of_eat_none (eat_eq_none hs ht)]
  exact ⟨hbare, hs, hfound⟩

theorem eatSum_of_rest {op : Operator} (hrest : r.rest = t :: rest) (ht : t.kind = .punct mark)
    (h : Grammar.SumMark mark op) :
    r.eatSum = some (op, r.advance t rest) := by
  cases h <;> simp [eatSum, eat, hrest, ht]

/-- In front of a sum, its terms are read up to the point where more terms may follow. -/
theorem expr_reaches (h : Grammar.Sum ks e) (hrest : Spells r.rest ks (t :: rest))
    (ht : t.kind ≠ .punct .star) :
    ∃ lhs s, r.expr = terms lhs s ∧ lhs.bare = e ∧ s.rest = t :: rest ∧ s.found = r.found := by
  induction h generalizing t rest with
  | term h =>
    obtain ⟨hbare, hproduct, hfound⟩ := product_of_grammar h hrest ht
    exact ⟨r.product.1, r.product.2, rfl, hbare, hproduct, hfound⟩
  | @operation ks ks' mark op lhs rhs hlhs hmark hrhs ih =>
    obtain ⟨more, hmore, htail⟩ := hrest.of_append
    obtain ⟨sign, more, rfl, hsign, htail⟩ := htail.of_cons
    -- The term in front of a sign ends there, since a sign is no star.
    have hne : sign.kind ≠ .punct .star := by
      rw [hsign]
      cases hmark <;> simp
    obtain ⟨lhs', s, hexpr, rfl, hs, hfound⟩ := ih hmore hne
    obtain ⟨rfl, hproduct, hfound'⟩ := product_of_grammar hrhs (r := s.advance sign more) htail ht
    rw [hexpr, terms_of_eatSum (eatSum_of_rest hs hsign hmark)]
    exact ⟨_, _, rfl, rfl, hproduct, hfound'.trans hfound⟩

theorem expr_of_grammar (h : Grammar.Sum ks e) (hrest : Spells r.rest ks (t :: rest))
    (ht : ∀ op : Operator, t.kind ≠ .punct op.mark) :
    r.expr.1.bare = e ∧ r.expr.2.rest = t :: rest ∧ r.expr.2.found = r.found := by
  obtain ⟨lhs, s, hexpr, hbare, hs, hfound⟩ := expr_reaches h hrest (ht .multiply)
  have hplus : s.eat .plus = none := eat_eq_none hs (ht .add)
  have hminus : s.eat .minus = none := eat_eq_none hs (ht .subtract)
  have hnone : s.eatSum = none := by simp [eatSum, hplus, hminus]
  rw [hexpr, terms_of_eatSum_none hnone]
  exact ⟨hbare, hs, hfound⟩

/-- In front of an expression between a mark and a semicolon, it is read. -/
theorem expr_between_of_grammar (h : Grammar.Sum ks e) {first : Punct}
    (hrest : Spells r.rest (.punct first :: (ks ++ [.punct .semicolon])) rest) :
    (r.expect first).expr.1.bare = e ∧
      ((r.expect first).expr.2.expect .semicolon).rest = rest ∧
      ((r.expect first).expr.2.expect .semicolon).found = r.found := by
  obtain ⟨open', more, hr, hopen, htail⟩ := hrest.of_cons
  obtain ⟨more', hexpr, hend⟩ := htail.of_append
  obtain ⟨close, rfl, hclose⟩ := hend.of_singleton
  have hlast (op : Operator) : close.kind ≠ .punct op.mark := by
    rw [hclose]
    cases op <;> simp [Operator.mark]
  rw [expect_of_rest hr hopen]
  obtain ⟨hbare, hs, hfound⟩ := expr_of_grammar h (r := r.advance open' more) hexpr hlast
  rw [expect_of_rest hs hclose]
  exact ⟨hbare, rfl, hfound⟩

theorem condition_of_grammar (h : Grammar.Value k e)
    (hrest : Spells r.rest (.punct .leftBracket :: k :: .punct .rightBracket :: ks) rest) :
    r.condition.1.2.bare = e ∧ Spells r.condition.2.rest ks rest ∧
      r.condition.2.found = r.found := by
  obtain ⟨left, more, hr, hleft, hmore⟩ := hrest.of_cons
  obtain ⟨t, more', rfl, rfl, hmore'⟩ := hmore.of_cons
  obtain ⟨right, more'', rfl, hright, htail⟩ := hmore'.of_cons
  -- The conditional is numbered before its condition is read, which reads nothing.
  have hopen : r.number.2.expect .leftBracket = r.number.2.advance left (t :: right :: more'') :=
    expect_of_rest hr hleft
  obtain ⟨hbare, hvalue, hfound⟩ :=
    value_of_grammar (r := r.number.2.advance left (t :: right :: more'')) rfl h
  simp only [condition, hopen]
  rw [expect_of_rest hvalue hright]
  exact ⟨hbare, htail, hfound⟩

/-- In front of a statement, which is read first, the reader `next` reads the others. -/
def Leads (r : Reader) (s : Statement) (next : Reader) : Prop :=
  r.statements = (s :: next.statements.1, next.statements.2)

theorem leads_declaration {name : String} (hrest : r.rest = t :: rest) (ht : t.kind = .lower name) :
    r.Leads (declaration ⟨name, t.span⟩ (r.advance t rest)).1
      (declaration ⟨name, t.span⟩ (r.advance t rest)).2 := by
  rw [Leads, statements_eq]
  simp [hrest, ht, StatementLead.of]

theorem leads_assignment {name : String} (hrest : r.rest = t :: rest)
    (ht : t.kind = .capital name) :
    r.Leads (.assign (assignment ⟨name, t.span⟩ (r.advance t rest)).1)
      (assignment ⟨name, t.span⟩ (r.advance t rest)).2 := by
  rw [Leads, statements_eq]
  simp [hrest, ht, StatementLead.of]

theorem leads_conditional (hrest : r.rest = t :: rest) (ht : t.kind = .keyword .ifWord) :
    r.Leads ((r.advance t rest).conditional t.span).1
      ((r.advance t rest).conditional t.span).2 := by
  rw [Leads, statements_eq]
  simp [hrest, ht, StatementLead.of]

theorem statements_of_close (hrest : r.rest = t :: rest) (ht : t.kind = .punct .rightBrace) :
    r.statements = ([], r) := by
  rw [statements_eq]
  simp [hrest, ht, StatementLead.of]

theorem eatElse_of_rest (hrest : r.rest = t :: rest) (ht : t.kind = .keyword .elseWord) :
    r.eatElse = some (t.span, r.advance t rest) := by
  simp [eatElse, hrest, ht]

def NoElse (tokens : List Token) : Prop :=
  ∀ t rest, tokens = t :: rest → t.kind ≠ .keyword .elseWord

theorem eatElse_eq_none (h : NoElse r.rest) : r.eatElse = none := by
  unfold eatElse
  split
  · next t rest hrest => simp [h t rest hrest]
  · rfl

theorem NoElse.of_spells (h : Spells tokens (k :: ks) rest) (hk : k ≠ .keyword .elseWord) :
    NoElse tokens := by
  obtain ⟨t, more, rfl, rfl, -⟩ := h.of_cons
  intro t' rest' heq
  obtain ⟨rfl, -⟩ := List.cons.inj heq
  exact hk

/-- In front of these tokens, this statement is read first. -/
def ReadsMember (ks : List Token.Kind) (s : Statement) : Prop :=
  ∀ {r : Reader} {rest : List Token}, Spells r.rest ks rest → NoElse rest →
    ∃ s' next, r.Leads s' next ∧ s'.bare = s ∧ next.rest = rest ∧ next.found = r.found

/-- In front of these tokens and the end of a block, these statements are read. -/
def ReadsMembers (ks : List Token.Kind) (body : List Statement) : Prop :=
  ∀ {r : Reader} {t : Token} {rest : List Token}, Spells r.rest ks (t :: rest) →
    t.kind = .punct .rightBrace → Statement.bareAll r.statements.1 = body ∧
      r.statements.2.rest = t :: rest ∧ r.statements.2.found = r.found

def ReadsBlock (ks : List Token.Kind) (body : List Statement) : Prop :=
  ∀ {r : Reader} {rest : List Token}, Spells r.rest ks rest →
    Statement.bareAll r.block.1 = body ∧ r.block.2.rest = rest ∧ r.block.2.found = r.found

theorem readsMember_declare (name : String) (h : Grammar.Sum ks e) :
    ReadsMember (.lower name :: .punct .colon :: (ks ++ [.punct .semicolon]))
      (.declare ⟨name, .zero⟩ e .zero) := by
  intro r rest hrest _
  obtain ⟨t, more, hr, ht, hmore⟩ := hrest.of_cons
  obtain ⟨rfl, hs, hfound⟩ := expr_between_of_grammar h (r := r.advance t more) hmore
  exact ⟨_, _, leads_declaration hr ht, rfl, hs, hfound⟩

theorem readsMember_assign {a : Assignment} (h : Grammar.Assign ks a) :
    ReadsMember ks (.assign a) := by
  intro r rest hrest _
  obtain ⟨name, h⟩ := h
  obtain ⟨t, more, hr, ht, hmore⟩ := hrest.of_cons
  obtain ⟨rfl, hs, hfound⟩ := expr_between_of_grammar h (r := r.advance t more) hmore
  exact ⟨_, _, leads_assignment hr ht, rfl, hs, hfound⟩

section Conditional

variable {k : Token.Kind} {condition : Expr} {ks ks' : List Token.Kind}
  {body alternative : List Statement}

theorem readsMember_ifThen (hcondition : Grammar.Value k condition) (hbody : ReadsBlock ks body) :
    ReadsMember (.keyword .ifWord :: .punct .leftBracket :: k :: .punct .rightBracket :: ks)
      (.ifThen .dummy condition body .zero) := by
  intro r rest hrest helse
  obtain ⟨t, more, hr, ht, hmore⟩ := hrest.of_cons
  obtain ⟨rfl, hhead, hfound⟩ := condition_of_grammar hcondition (r := r.advance t more) hmore
  obtain ⟨rfl, hs, hfound'⟩ := hbody hhead
  refine ⟨_, _, leads_conditional hr ht, ?_⟩
  rw [conditional_eq]
  -- What follows the block is no `else`, so that the reader stops after it.
  simp only [eatElse_eq_none (hs.symm ▸ helse)]
  exact ⟨rfl, hs, hfound'.trans hfound⟩

theorem readsMember_ifElse (hcondition : Grammar.Value k condition) (hbody : ReadsBlock ks body)
    (halternative : ReadsBlock ks' alternative) :
    ReadsMember (.keyword .ifWord :: .punct .leftBracket :: k :: .punct .rightBracket ::
        (ks ++ .keyword .elseWord :: ks'))
      (.ifElse .dummy condition body alternative .zero .zero) := by
  intro r rest hrest _
  obtain ⟨t, more, hr, ht, hmore⟩ := hrest.of_cons
  obtain ⟨rfl, hhead, hfound⟩ := condition_of_grammar hcondition (r := r.advance t more) hmore
  obtain ⟨between, hthen, hother⟩ := hhead.of_append
  obtain ⟨rfl, hs, hfound'⟩ := hbody hthen
  obtain ⟨word, after, rfl, hword, hafter⟩ := hother.of_cons
  obtain ⟨rfl, hs', hfound''⟩ := halternative
    (r := (r.advance t more).condition.2.block.2.advance word after) hafter
  refine ⟨_, _, leads_conditional hr ht, ?_⟩
  rw [conditional_eq]
  simp only [eatElse_of_rest hs hword]
  exact ⟨rfl, hs', hfound''.trans (hfound'.trans hfound)⟩

end Conditional

theorem readsMembers_one {s : Statement} (h : ReadsMember ks s) : ReadsMembers ks [s] := by
  intro r t rest hrest ht
  have helse : NoElse (t :: rest) := by
    intro t' rest' heq
    obtain ⟨rfl, -⟩ := List.cons.inj heq
    simp [ht]
  obtain ⟨s, next, hleads, rfl, hnext, hfound⟩ := h hrest helse
  rw [hleads, statements_of_close hnext ht]
  exact ⟨rfl, hnext, hfound⟩

theorem readsMembers_cons {ks' : List Token.Kind} {s : Statement} {body : List Statement}
    (hfirst : ReadsMember ks s) (hmembers : Grammar.Members ks' body)
    (hmore : ReadsMembers ks' body) : ReadsMembers (ks ++ ks') (s :: body) := by
  intro r t rest hrest ht
  obtain ⟨between, hthis, hothers⟩ := hrest.of_append
  -- No statement starts with `else`, so that the first one ends where the next one starts.
  obtain ⟨k, ks', rfl, hk⟩ := hmembers.head
  obtain ⟨s, next, hleads, rfl, rfl, hfound⟩ := hfirst hthis (.of_spells hothers hk)
  obtain ⟨rfl, hs, hfound'⟩ := hmore hothers ht
  rw [hleads]
  exact ⟨rfl, hs, hfound'.trans hfound⟩

theorem readsBlock_mk {body : List Statement} (hmembers : Grammar.Members ks body)
    (h : ReadsMembers ks body) :
    ReadsBlock (.punct .leftBrace :: (ks ++ [.punct .rightBrace])) body := by
  intro r rest hrest
  obtain ⟨left, more, hr, hleft, hmore⟩ := hrest.of_cons
  obtain ⟨more', hbody, hend⟩ := hmore.of_append
  obtain ⟨right, rfl, hright⟩ := hend.of_singleton
  obtain ⟨rfl, hs, hfound⟩ := h (r := r.advance left more) hbody hright
  rw [block_eq]
  simp only [expect_of_rest hr hleft]
  -- The block is not empty and its brace is there, so that closing it meets no problem.
  have hclose : closeBlock r.peek.span (r.advance left more).statements.1
      (r.advance left more).statements.2 =
        (r.advance left more).statements.2.advance right rest := by
    have hnonempty := hmembers.isEmpty_bareAll
    simp [closeBlock, expect_of_rest hs hright, hnonempty]
  rw [hclose]
  exact ⟨trivial, rfl, hfound⟩

mutual

theorem leads_of_grammar {ks : List Token.Kind} {s : Statement} :
    Grammar.Member ks s → ReadsMember ks s
  | .declare name h => readsMember_declare name h
  | .assign h => readsMember_assign h
  | .ifThen hcondition hbody => readsMember_ifThen hcondition (block_of_grammar hbody)
  | .ifElse hcondition hbody halternative =>
    readsMember_ifElse hcondition (block_of_grammar hbody) (block_of_grammar halternative)

theorem statements_of_grammar {ks : List Token.Kind} {body : List Statement} :
    Grammar.Members ks body → ReadsMembers ks body
  | .one h => readsMembers_one (leads_of_grammar h)
  | .cons hfirst hmore =>
    readsMembers_cons (leads_of_grammar hfirst) hmore (statements_of_grammar hmore)

theorem block_of_grammar {ks : List Token.Kind} {body : List Statement} :
    Grammar.Block ks body → ReadsBlock ks body
  | .mk h => readsBlock_mk h (statements_of_grammar h)

end

/-- In front of a member of the grammar, that member is read first. -/
theorem items_of_item {i : Item} (h : Grammar.Item ks i) (hrest : Spells r.rest ks rest) :
    ∃ i' : Item, ∃ next : Reader, r.items = (i' :: next.items.1, next.items.2) ∧ i'.bare = i ∧
      next.rest = rest ∧ next.found = r.found := by
  cases h with
  | assign h =>
    obtain ⟨name, h⟩ := h
    obtain ⟨t, more, hr, ht, hmore⟩ := hrest.of_cons
    obtain ⟨rfl, hs, hfound⟩ := expr_between_of_grammar h (r := r.advance t more) hmore
    refine ⟨.assign (assignment ⟨name, t.span⟩ (r.advance t more)).1,
      (assignment ⟨name, t.span⟩ (r.advance t more)).2, ?_, rfl, hs, hfound⟩
    rw [items_eq]
    simp [hr, ht, ItemLead.of]
  | @rule k selector ks body hselector hbody =>
    obtain ⟨t, more, hr, rfl, hmore⟩ := hrest.of_cons
    obtain ⟨rfl, hs, hfound⟩ := block_of_grammar hbody (r := r.advance t more) hmore
    refine ⟨.rule ⟨selector, (r.advance t more).block.1,
      t.span.merge (r.advance t more).block.2.prevSpan⟩, (r.advance t more).block.2, ?_, rfl, hs,
      hfound⟩
    rw [items_eq]
    simp [hr, ItemLead.of_select hselector]

theorem items_of_grammar {items : List Item} (h : Grammar.Items ks items) {last : Token}
    (hrest : Spells r.rest ks [last]) (hlast : last.kind = .eof) :
    r.items.1.map Item.bare = items ∧ r.items.2.found = r.found := by
  induction h generalizing r with
  | one h =>
    obtain ⟨i, next, hitems, rfl, hnext, hfound⟩ := items_of_item h hrest
    -- Behind the last member is the end of the source.
    have hstop : next.items = ([], next) := by
      rw [items_eq]
      simp [hnext, hlast, ItemLead.of]
    rw [hitems, hstop]
    exact ⟨rfl, hfound⟩
  | cons hfirst _ ih =>
    obtain ⟨between, hthis, hothers⟩ := hrest.of_append
    obtain ⟨i, next, hitems, rfl, rfl, hfound⟩ := items_of_item hfirst hthis
    obtain ⟨rfl, hfound'⟩ := ih hothers
    rw [hitems]
    exact ⟨rfl, hfound'.trans hfound⟩

/-- The tokens of a sheet of the grammar are read without problems, as that sheet. -/
theorem sheet_complete {body : List Token} {last : Token} (hlast : last.kind = .eof)
    {tree : Sheet} (h : Grammar.Sheet (body.map Token.kind) tree) :
    (start (body ++ [last]) []).sheet.1.bare = tree ∧
      (start (body ++ [last]) []).sheet.2.diagnostics = [] := by
  obtain ⟨hitems, hfound⟩ := items_of_grammar h (r := start (body ++ [last]) [])
    ⟨body, rfl, rfl⟩ hlast
  have hnone : (start (body ++ [last]) []).items.2.diagnostics = [] :=
    List.length_eq_zero_iff.mp hfound
  -- An empty sheet would be reported, but the grammar has none.
  have hsome : (start (body ++ [last]) []).items.1 ≠ [] := by
    intro hempty
    rw [hempty] at hitems
    exact Grammar.Items.ne_nil h hitems.symm
  simp only [sheet, List.isEmpty_eq_false_iff.mpr hsome, Bool.false_and, Bool.false_eq_true,
    if_false]
  exact ⟨congrArg Sheet.mk hitems, hnone⟩

/-- Reading reports nothing exactly on the tokens of the grammar. What it then reads is, without
its labels, the one sheet that those tokens derive, and the sheet written back gives the tokens. -/
theorem sheet_accepts_iff (body : List Token) (last : Token) (hbody : ∀ t ∈ body, t.kind ≠ .eof)
    (hlast : last.kind = .eof) :
    ((start (body ++ [last]) []).sheet.2.diagnostics = [] ↔
        ∃ tree, Grammar.Sheet (body.map Token.kind) tree) ∧
      ((start (body ++ [last]) []).sheet.2.diagnostics = [] →
        (∀ tree, Grammar.Sheet (body.map Token.kind) tree ↔
          tree = (start (body ++ [last]) []).sheet.1.bare) ∧
        (start (body ++ [last]) []).sheet.1.kinds = body.map Token.kind) := by
  refine ⟨⟨fun h => ⟨_, sheet_sound hbody hlast h⟩, ?_⟩, fun h => ?_⟩
  · rintro ⟨tree, htree⟩
    exact (sheet_complete hlast htree).2
  · have hsound := sheet_sound hbody hlast h
    refine ⟨fun tree => ⟨fun htree => (sheet_complete hlast htree).1.symm, ?_⟩, ?_⟩
    · rintro rfl
      exact hsound
    · rw [← Sheet.kinds_bare]
      exact hsound.kinds

/-- The tokens of the kinds, all at the start of the source. -/
def tokensOf (ks : List Token.Kind) : List Token :=
  ks.map fun kind => { kind, span := .zero }

/-- `a { width: 1px + 2 * X; if [true] { X := X; } }` -/
def nestedKinds : List Token.Kind :=
  [.lower "a", .punct .leftBrace, .lower "width", .punct .colon, .pixel 1, .punct .plus,
    .scalar 2, .punct .star, .capital "X", .punct .semicolon, .keyword .ifWord,
    .punct .leftBracket, .bool true, .punct .rightBracket, .punct .leftBrace, .capital "X",
    .punct .assign, .capital "X", .punct .semicolon, .punct .rightBrace, .punct .rightBrace]

/-- The product is the right operand of the sum. -/
theorem sheet_accepts_nested :
    (start (tokensOf nestedKinds ++ [{ kind := .eof, span := .zero }]) []).sheet.1.bare =
      ⟨[.rule {
        selector := .tag "a"
        body := [
          .declare ⟨"width", .zero⟩ (Grammar.operation .add (Grammar.literal (.pixel 1))
            (Grammar.operation .multiply (Grammar.literal (.scalar 2))
              (.reference .dummy .zero "X"))) .zero,
          .ifThen .dummy (Grammar.literal (.bool true))
            [.assign ⟨⟨"X", .zero⟩, .reference .dummy .zero "X", .zero⟩] .zero]
        span := .zero }]⟩ := by
  have haccepts := sheet_accepts_iff (tokensOf nestedKinds) { kind := .eof, span := .zero }
    (by decide) rfl
  have hproduct := Grammar.Term.times (.value (.scalar 2)) (.variable "X")
  have hsum := Grammar.Sum.operation (.term (.value (.pixel 1))) .plus hproduct
  have hinner := Grammar.Block.mk
    (.one (.assign (.mk "X" (.term (.value (.variable "X"))))))
  have htree : Grammar.Sheet ((tokensOf nestedKinds).map Token.kind) _ :=
    Grammar.Items.one (.rule (.tag "a") (.mk (.cons (.declare "width" hsum)
      (.one (.ifThen (.bool true) hinner)))))
  exact (((haccepts.2 (haccepts.1.2 ⟨_, htree⟩)).1 _).1 htree).symm

end Reader

end TypedStyle
