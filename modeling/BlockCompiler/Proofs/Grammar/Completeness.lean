import BlockCompiler.Proofs.Grammar.Soundness

/-!
# Phrases are parsed

A phrase by precedence in front of other tokens is parsed to its tree, and the other tokens are left
(`Parse.yields_program` for whole programs). The parser takes as much as it can, so what follows the
phrase must not continue it: behind an expression there is neither an operator nor a parenthesis,
behind a statement neither a semicolon nor an alternative. In a phrase that goes on, this is never
so.

Together with soundness, the parser accepts the grammar and nothing else, and what it yields is the
one program by precedence that the tokens stand for.
-/

namespace BlockCompiler

namespace Grammar

/-! ## First tokens -/

/-- The token may start an operand. -/
def startsPrimary : Token → Bool
  | .number _ | .text _ | .name _ | .mark .openParen => true
  | _ => false

/-- The token may end an operand. -/
def endsPrimary : Token → Bool
  | .number _ | .text _ | .name _ | .mark .closeParen => true
  | _ => false

/-- The token may start a statement. -/
def startsStmt (t : Token) : Bool :=
  startsPrimary t || t matches .keyword .setKw | .keyword .constKw | .keyword .returnKw
    | .keyword .ifKw | .keyword .whileKw

section

variable {Reading : Expr → Chain → Expr → Prop} {u : List Token}

theorem IsPrimary.starts {p : Expr} (h : IsPrimary Reading u p) :
    ∃ t v, u = t :: v ∧ startsPrimary t = true := by
  cases h with
  | number | text | name | callNone | call | paren => exact ⟨_, _, rfl, rfl⟩

theorem IsExpr.starts {e : Expr} (h : IsExpr Reading u e) :
    ∃ t v, u = t :: v ∧ startsPrimary t = true := by
  cases h with
  | intro first =>
    obtain ⟨t, v, rfl, ht⟩ := first.starts
    exact ⟨t, _, rfl, ht⟩

theorem IsPrimary.ends {p : Expr} (h : IsPrimary Reading u p) :
    ∃ v t, u = v ++ [t] ∧ endsPrimary t = true := by
  cases h with
  | number | text | name => exact ⟨[], _, rfl, rfl⟩
  | callNone => exact ⟨[_, _], _, rfl, rfl⟩
  | call => exact ⟨_ :: _ :: _, _, rfl, rfl⟩
  | paren => exact ⟨_ :: _, _, rfl, rfl⟩

theorem IsOperands.ends {u : List Token} {c : Chain} (h : IsOperands Reading u c) :
    u = [] ∨ ∃ v t, u = v ++ [t] ∧ endsPrimary t = true := by
  induction c generalizing u with
  | nil =>
    cases h
    exact .inl rfl
  | cons link others ih =>
    cases h with
    | cons operand others =>
      rcases ih others with rfl | ⟨v, t, rfl, ht⟩
      · obtain ⟨v, t, rfl, ht⟩ := operand.ends
        exact .inr ⟨_ :: v, t, by rw [List.append_nil]; rfl, ht⟩
      · exact .inr ⟨_ :: (_ ++ v), t, by rw [List.cons_append, List.append_assoc], ht⟩

theorem IsExpr.ends {e : Expr} (h : IsExpr Reading u e) :
    ∃ v t, u = v ++ [t] ∧ endsPrimary t = true := by
  cases h with
  | intro first others =>
    rcases others.ends with rfl | ⟨v, t, rfl, ht⟩
    · rw [List.append_nil]
      exact first.ends
    · exact ⟨_ ++ v, t, (List.append_assoc ..).symm, ht⟩

theorem IsArgs.starts {es : List Expr} (h : IsArgs Reading u es) :
    ∃ t v, u = t :: v ∧ startsPrimary t = true := by
  cases h with
  | one arg => exact arg.starts
  | cons arg =>
    obtain ⟨t, v, rfl, ht⟩ := arg.starts
    exact ⟨t, _, rfl, ht⟩

theorem IsStmt.starts {s : Stmt} (h : IsStmt Reading u s) :
    ∃ t v, u = t :: v ∧ startsStmt t = true := by
  cases h with
  | assign word =>
    refine ⟨_, _, rfl, ?_⟩
    rcases word with rfl | rfl <;> rfl
  | ret | ifThen | ifElse | loop => exact ⟨_, _, rfl, rfl⟩
  | eval value =>
    obtain ⟨t, v, rfl, ht⟩ := value.starts
    exact ⟨t, _, rfl, by simp [startsStmt, ht]⟩

theorem IsStmts.starts {ss : List Stmt} (h : IsStmts Reading u ss) :
    ∃ t v, u = t :: v ∧ startsStmt t = true := by
  cases h with
  | one only => exact only.starts
  | cons first =>
    obtain ⟨t, v, rfl, ht⟩ := first.starts
    exact ⟨t, _, rfl, ht⟩

theorem IsParams.starts {ps : List Param} (h : IsParams u ps) : ∃ t v, u = .ty t :: v := by
  cases h with
  | one param => cases param <;> exact ⟨_, _, rfl⟩
  | cons param => cases param <;> exact ⟨_, _, rfl⟩

end

end Grammar

namespace Parse

open Grammar

/-! ## Expressions -/

/-- The tokens do not make the operand in front of them a call. -/
def EndsPrimary (ts : List Token) : Prop := ts.head? ≠ some (.mark .openParen)

/-- The tokens do not continue the expression in front of them. -/
def EndsExpr (ts : List Token) : Prop :=
  EndsPrimary ts ∧ ∀ op, ts.head? ≠ some (.operator op)

/-- The tokens `ts` do not make the operand that ends the tokens `u` a call: a parenthesis does so
behind a name only. -/
def EndsOperand (u ts : List Token) : Prop :=
  EndsPrimary ts ∨ ∀ ident, u.getLast? ≠ some (.name ident)

/-- The tokens end in a mark that ends a declaration, whatever follows. -/
def Closes (u : List Token) : Prop :=
  u.getLast? = some (.mark .semi) ∨ u.getLast? = some (.mark .closeBrace)

theorem endsExpr_mark {m : Mark} (h : m ≠ .openParen) (ts : List Token) :
    EndsExpr (.mark m :: ts) :=
  ⟨fun heq ↦ h (by simpa using heq), fun op ↦ by simp⟩

/-- The operand is parsed from the tokens, whatever follows. -/
def ReadsPrimary (u : List Token) (p : Expr) : Prop :=
  ∀ rest, EndsPrimary rest → (primary (u ++ rest)).Yields p rest

/-- The expression is parsed from the tokens, whatever follows. -/
def ReadsExpr (u : List Token) (e : Expr) : Prop :=
  ∀ rest, EndsExpr rest → (expr (u ++ rest)).Yields e rest

/-- The arguments are parsed from the tokens, with the closing parenthesis. -/
def ReadsArgs (u : List Token) (es : List Expr) : Prop :=
  ∀ rest, (arguments (u ++ .mark .closeParen :: rest)).Yields es rest

/-- Operators, each with an operand behind it that is parsed. -/
inductive ReadsOperands : List Token → Chain → Prop
  | nil : ReadsOperands [] []
  | cons {op : Operator} {u v : List Token} {p : Expr} {c : Chain} (operand : ReadsPrimary u p)
      (others : ReadsOperands v c) : ReadsOperands (.operator op :: (u ++ v)) ((op, p) :: c)

theorem ReadsOperands.endsPrimary {v : List Token} {c : Chain} (h : ReadsOperands v c)
    {rest : List Token} (hrest : EndsPrimary rest) : EndsPrimary (v ++ rest) := by
  cases h with
  | nil => exact hrest
  | cons => exact fun heq ↦ nomatch heq

/-- Operators, each with an operand behind it that is parsed in front of the tokens `ts`. -/
inductive ReadsBefore (ts : List Token) : List Token → Chain → Prop
  | nil : ReadsBefore ts [] []
  | cons {op : Operator} {u v : List Token} {p : Expr} {c : Chain}
      (operand : (primary (u ++ (v ++ ts))).Yields p (v ++ ts)) (others : ReadsBefore ts v c) :
      ReadsBefore ts (.operator op :: (u ++ v)) ((op, p) :: c)

theorem ReadsOperands.before {v ts : List Token} {c : Chain} (h : ReadsOperands v c)
    (hts : EndsPrimary ts) : ReadsBefore ts v c := by
  induction h with
  | nil => exact .nil
  | cons operand others ih => exact .cons (operand _ (others.endsPrimary hts)) ih

/-- A chain is read from its parts. -/
theorem ReadsBefore.split {w ts : List Token} {c₁ c₂ : Chain} {op : Operator} {q : Expr}
    (h : ReadsBefore ts w (c₁ ++ (op, q) :: c₂)) :
    ∃ v₁ u v₂, w = v₁ ++ .operator op :: (u ++ v₂) ∧
      ReadsBefore (.operator op :: (u ++ (v₂ ++ ts))) v₁ c₁ ∧
      (primary (u ++ (v₂ ++ ts))).Yields q (v₂ ++ ts) ∧ ReadsBefore ts v₂ c₂ := by
  induction c₁ generalizing w with
  | nil =>
    cases h with
    | cons operand others => exact ⟨[], _, _, rfl, .nil, operand, others⟩
  | cons x c₁ ih =>
    cases h with
    | cons operand others =>
      obtain ⟨v₁, u, v₂, rfl, h₁, hq, h₂⟩ := ih others
      rw [List.append_assoc, List.cons_append, List.append_assoc] at operand
      exact ⟨_, u, v₂, by simp, .cons operand h₁, hq, h₂⟩

/-! ### Climbing

The root of a tree by precedence is the last operator that binds least. The loop reads the chain to
the left of it, comes to the root with the tree on the left complete, and reads the operand on the
right with a bound that the root itself does not meet.
-/

/-- The loop stops in front of an operator that binds less than it must. -/
theorem yields_operators_self {least : Nat} {e : Expr} {ts : List Token}
    (h : ∀ op, ts.head? = some (.operator op) → op.precedence < least) :
    (operators least e ts).Yields e ts := by
  rw [operators.eq_def]
  split
  · next op rest =>
    rw [if_neg (Nat.not_le.mpr (h op rfl))]
    exact Outcome.yields_ok.mpr ⟨rfl, rfl⟩
  · exact Outcome.yields_ok.mpr ⟨rfl, rfl⟩

theorem yields_operators_cons {least : Nat} {lhs q r a : Expr} {op : Operator}
    {ts ts₁ ts₂ rest : List Token} (hle : least ≤ op.precedence) (hq : (primary ts).Yields q ts₁)
    (hr : (operators (op.precedence + 1) q ts₁).Yields r ts₂)
    (ha : (operators least (.binary op lhs r) ts₂).Yields a rest) :
    (operators least lhs (.operator op :: ts)).Yields a rest := by
  rw [operators, if_pos hle]
  exact hq.andThen fun _ ↦ hr.andThen fun _ ↦ ha.widen

/-- The loop reads a chain in front of it to the tree by precedence, if no operator of the chain
binds too loose and the next operator binds no tighter than any of them. -/
theorem yields_operators_of_chain {p e : Expr} {c : Chain} (h : ByPrecedence p c e)
    {least : Nat} {v ts : List Token} (hv : ReadsBefore ts v c)
    (hleast : ∀ x ∈ c, least ≤ x.1.precedence)
    (hnext : ∀ op, ts.head? = some (.operator op) → ∀ x ∈ c, op.precedence ≤ x.1.precedence)
    {a : Expr} {rest : List Token} (ha : (operators least e ts).Yields a rest) :
    (operators least p (v ++ ts)).Yields a rest := by
  induction h generalizing least v ts a rest with
  | operand =>
    cases hv
    exact ha
  | @node p q l r op c₁ c₂ left right noLooser tighter ihLeft ihRight =>
    obtain ⟨v₁, u, v₂, rfl, hv₁, hq, hv₂⟩ := hv.split
    have hroot : least ≤ op.precedence := hleast (op, q) (by simp)
    have hbefore : ∀ op', ts.head? = some (.operator op') → op'.precedence ≤ op.precedence :=
      fun op' h' ↦ hnext op' h' (op, q) (by simp)
    -- The operand on the right takes `c₂` and stops behind it.
    have hright : (operators (op.precedence + 1) q (v₂ ++ ts)).Yields r ts :=
      ihRight hv₂ (fun x hx ↦ tighter x hx)
        (fun op' h' x hx ↦ Nat.le_trans (hbefore op' h') (Nat.le_of_lt (tighter x hx)))
        (yields_operators_self fun op' h' ↦ Nat.lt_succ_of_le (hbefore op' h'))
    have hmiddle : (operators least l (.operator op :: (u ++ (v₂ ++ ts)))).Yields a rest :=
      yields_operators_cons hroot hq hright ha
    have hleft : (operators least p (v₁ ++ .operator op :: (u ++ (v₂ ++ ts)))).Yields a rest := by
      refine ihLeft hv₁ (fun x hx ↦ hleast x (by simp [hx])) ?_ hmiddle
      intro op' h' x hx
      obtain ⟨⟩ := Option.some.inj h'
      exact noLooser x hx
    rwa [List.append_assoc, List.cons_append, List.append_assoc]

theorem yields_expr_of_chain {u v rest : List Token} {p e : Expr} {c : Chain}
    (hp : (primary (u ++ (v ++ rest))).Yields p (v ++ rest)) (hc : ReadsBefore rest v c)
    (he : ByPrecedence p c e) (hrest : ∀ op, rest.head? ≠ some (.operator op)) :
    (expr (u ++ (v ++ rest))).Yields e rest := by
  have hloop : (operators 0 p (v ++ rest)).Yields e rest :=
    yields_operators_of_chain he hc (fun _ _ ↦ Nat.zero_le _) (fun op h ↦ absurd h (hrest op))
      (yields_operators_self fun op h ↦ absurd h (hrest op))
  rw [expr]
  exact hp.andThen fun _ ↦ hloop.widen

theorem readsExpr_of_chain {u v : List Token} {p e : Expr} {c : Chain} (hp : ReadsPrimary u p)
    (hc : ReadsOperands v c) (he : ByPrecedence p c e) : ReadsExpr (u ++ v) e := by
  intro rest hrest
  rw [List.append_assoc]
  exact yields_expr_of_chain (hp _ (hc.endsPrimary hrest.1)) (hc.before hrest.1) he hrest.2

/-! ### Operands

Behind a name an opening parenthesis always starts a call, and the first token behind it tells
whether the call has arguments.
-/

theorem yields_primary_name {ident : String} {rest : List Token} (h : EndsPrimary rest) :
    (primary ([.name ident] ++ rest)).Yields (.name ident) rest := by
  rw [primary.eq_def]
  simp only [List.cons_append, List.nil_append, List.head?_cons]
  rw [nameOrCall.eq_def]
  refine yields_expectName_self.andThen fun _ ↦ ?_
  split
  · exact absurd rfl h
  · exact absurd rfl h
  · exact Outcome.yields_ok.mpr ⟨rfl, rfl⟩

theorem yields_primary_callNone {ident : String} {rest : List Token} :
    (primary ([.name ident, .mark .openParen, .mark .closeParen] ++ rest)).Yields (.call ident [])
      rest := by
  rw [primary.eq_def]
  simp only [List.cons_append, List.nil_append, List.head?_cons]
  rw [nameOrCall.eq_def]
  exact yields_expectName_self.andThen fun _ ↦ Outcome.yields_ok.mpr ⟨rfl, rfl⟩

theorem yields_primary_call {ident : String} {u : List Token} {es : List Expr} {rest : List Token}
    (hstarts : ∃ t v, u = t :: v ∧ startsPrimary t = true) (h : ReadsArgs u es) :
    (primary (.name ident :: .mark .openParen :: (u ++ .mark .closeParen :: rest))).Yields
      (.call ident es) rest := by
  have hargs := h rest
  obtain ⟨t, v, rfl, ht⟩ := hstarts
  rw [primary.eq_def]
  simp only [List.head?_cons]
  rw [nameOrCall.eq_def]
  refine yields_expectName_self.andThen fun _ ↦ ?_
  split
  · next heq _ =>
    obtain ⟨rfl, -⟩ := List.cons.inj (List.cons.inj heq).2
    exact absurd ht (by decide)
  · next heq _ =>
    obtain ⟨-, rfl⟩ := List.cons.inj heq
    exact hargs.map.widen
  · next hne => exact (hne _ (Nat.lt_add_one _) rfl HEq.rfl).elim

theorem yields_primary_paren {u : List Token} {e : Expr} {rest : List Token} (h : ReadsExpr u e) :
    (primary (.mark .openParen :: (u ++ .mark .closeParen :: rest))).Yields e rest := by
  have hinner := h (.mark .closeParen :: rest) (endsExpr_mark (by decide) _)
  rw [primary.eq_def]
  simp only [List.head?_cons]
  rw [parenthesised.eq_def]
  refine yields_expect_self.andThen fun _ ↦ hinner.andThen fun _ ↦ ?_
  exact yields_expect_self.andThen fun _ ↦ Outcome.yields_ok.mpr ⟨rfl, rfl⟩

theorem readsArgs_one {u : List Token} {e : Expr} (h : ReadsExpr u e) : ReadsArgs u [e] := by
  intro rest
  rw [arguments]
  exact (h _ (endsExpr_mark (by decide) _)).andThen fun _ ↦ Outcome.yields_ok.mpr ⟨rfl, rfl⟩

theorem readsArgs_cons {u v : List Token} {e : Expr} {es : List Expr} (h : ReadsExpr u e)
    (hs : ReadsArgs v es) : ReadsArgs (u ++ .mark .comma :: v) (e :: es) := by
  intro rest
  rw [arguments, List.append_assoc]
  refine (h _ (endsExpr_mark (by decide) _)).andThen fun _ ↦ ?_
  exact (hs rest).map.widen

mutual

theorem yields_primary {u rest : List Token} {p : Expr} :
    IsPrimary ByPrecedence u p → EndsOperand u rest → (primary (u ++ rest)).Yields p rest
  | .number, _ => by
    rw [primary.eq_def]
    exact Outcome.yields_ok.mpr ⟨rfl, rfl⟩
  | .text, _ => by
    rw [primary.eq_def]
    exact Outcome.yields_ok.mpr ⟨rfl, rfl⟩
  | .name, hrest => yields_primary_name (hrest.resolve_right fun hne ↦ hne _ rfl)
  | .callNone, _ => yields_primary_callNone
  | .call args, _ => by
    rw [List.cons_append, List.cons_append, List.append_assoc]
    exact yields_primary_call args.starts (readsArgs args)
  | .paren inner, _ => by
    rw [List.cons_append, List.append_assoc]
    exact yields_primary_paren (readsExpr inner)
termination_by structural h => h

theorem readsOperands {v : List Token} {c : Chain} :
    IsOperands ByPrecedence v c → ReadsOperands v c
  | .nil => .nil
  | .cons operand others =>
    .cons (fun _ hrest ↦ yields_primary operand (.inl hrest)) (readsOperands others)
termination_by structural h => h

theorem readsExpr {u : List Token} {e : Expr} : IsExpr ByPrecedence u e → ReadsExpr u e
  | .intro first others reading =>
    readsExpr_of_chain (fun _ hrest ↦ yields_primary first (.inl hrest)) (readsOperands others)
      reading
termination_by structural h => h

theorem readsArgs {u : List Token} {es : List Expr} : IsArgs ByPrecedence u es → ReadsArgs u es
  | .one arg => readsArgs_one (readsExpr arg)
  | .cons arg others => readsArgs_cons (readsExpr arg) (readsArgs others)
termination_by structural h => h

end

/-! ## Statements -/

/-- The tokens do not continue the statement in front of them. -/
def EndsStmt (ts : List Token) : Prop :=
  ts.head? ≠ some (.mark .semi) ∧ ts.head? ≠ some (.keyword .elseKw)

theorem endsStmt_of_starts {t : Token} (h : startsStmt t = true) (ts : List Token) :
    EndsStmt (t :: ts) := by
  constructor <;> rintro ⟨⟩ <;> exact absurd h (by decide)

/-- The statement is parsed from the tokens, whatever follows. -/
def ReadsStmt (u : List Token) (s : Stmt) : Prop :=
  ∀ rest, EndsStmt rest → (stmt (u ++ rest)).Yields s rest

/-- The statements are parsed from the tokens, with the closing brace. -/
def ReadsStmts (u : List Token) (ss : List Stmt) : Prop :=
  ∀ rest, (stmts (u ++ .mark .closeBrace :: rest)).Yields ss rest

/-- The block is parsed from the tokens, whatever follows. -/
def ReadsBlock (u : List Token) (ss : List Stmt) : Prop :=
  ∀ rest, (block (u ++ rest)).Yields ss rest

theorem yields_assignment {t : Token} {ident : String} {u rest : List Token} {e : Expr}
    (h : ReadsExpr u e) (hrest : EndsExpr rest) :
    (assignment (t :: .name ident :: .operator .equal :: (u ++ rest))).Yields (ident, e) rest := by
  unfold assignment
  refine yields_expectName_self.andThen fun _ ↦ yields_expect_self.andThen fun _ ↦ ?_
  exact (h rest hrest).map.widen

theorem yields_stmt_of_simple {t : Token} {ts rest : List Token} {s : Stmt}
    (hif : t ≠ .keyword .ifKw) (hwhile : t ≠ .keyword .whileKw)
    (h : (simpleStmt (t :: ts)).Yields s (.mark .semi :: rest)) :
    (stmt (t :: ts)).Yields s rest := by
  rw [stmt]
  split
  · next heq => exact absurd (Option.some.inj heq) hif
  · next heq => exact absurd (Option.some.inj heq) hwhile
  · exact h.andThen fun _ ↦ yields_expect_self.map.widen

theorem readsStmt_assign {k : Keyword} {ident : String} {u : List Token} {e : Expr}
    (hk : IsAssigner k) (h : ReadsExpr u e) :
    ReadsStmt (.keyword k :: .name ident :: .operator .equal :: (u ++ [.mark .semi]))
      (.assign ident e) := by
  intro rest _
  have hvalue : (assignment (.keyword k :: .name ident :: .operator .equal ::
      (u ++ .mark .semi :: rest))).Yields (ident, e) (.mark .semi :: rest) :=
    yields_assignment h (endsExpr_mark (by decide) _)
  rw [List.cons_append, List.cons_append, List.cons_append, List.append_assoc]
  rcases hk with rfl | rfl
  · refine yields_stmt_of_simple (by decide) (by decide) ?_
    exact hvalue.map
  · refine yields_stmt_of_simple (by decide) (by decide) ?_
    exact hvalue.map

theorem readsStmt_ret {u : List Token} {e : Expr} (h : ReadsExpr u e) :
    ReadsStmt (.keyword .returnKw :: (u ++ [.mark .semi])) (.ret e) := by
  intro rest _
  have hvalue := h (.mark .semi :: rest) (endsExpr_mark (by decide) _)
  rw [List.cons_append, List.append_assoc]
  have hret : (returned (.keyword .returnKw :: (u ++ .mark .semi :: rest))).Yields (.ret e)
      (.mark .semi :: rest) :=
    yields_expect_self.andThen fun _ ↦ hvalue.map.widen
  exact yields_stmt_of_simple (by decide) (by decide) hret

theorem readsStmt_eval {u : List Token} {e : Expr} (hu : IsExpr ByPrecedence u e) :
    ReadsStmt (u ++ [.mark .semi]) (.eval e) := by
  intro rest _
  have hvalue := readsExpr hu (.mark .semi :: rest) (endsExpr_mark (by decide) _)
  obtain ⟨t, v, rfl, ht⟩ := hu.starts
  rw [List.append_assoc]
  -- No operand starts with a word that starts a statement.
  refine yields_stmt_of_simple ?_ ?_ ?_
  · rintro rfl
    exact absurd ht (by decide)
  · rintro rfl
    exact absurd ht (by decide)
  · unfold simpleStmt
    split
    · next heq => exact absurd (Option.some.inj heq ▸ ht) (by decide)
    · next heq => exact absurd (Option.some.inj heq ▸ ht) (by decide)
    · next heq => exact absurd (Option.some.inj heq ▸ ht) (by decide)
    · exact hvalue.map

/-- Behind a conditional or a loop a semicolon is taken if it is there. -/
theorem skipSemi_append {w rest : List Token} (hw : IsOptionalSemi w) (hrest : EndsStmt rest) :
    skipSemi (w ++ rest) = rest := by
  rcases hw with rfl | rfl
  · rw [List.nil_append]
    unfold skipSemi
    split
    · exact absurd rfl hrest.1
    · rfl
  · rfl

theorem endsExpr_of_isBlock {Reading : Expr → Chain → Expr → Prop} {v : List Token} {ss : List Stmt}
    (h : IsBlock Reading v ss) (rest : List Token) : EndsExpr (v ++ rest) := by
  cases h
  exact endsExpr_mark (by decide) _

theorem readsStmt_loop {u v w : List Token} {e : Expr} {ss : List Stmt} (he : ReadsExpr u e)
    (hv : ∀ rest, EndsExpr (v ++ rest)) (hss : ReadsBlock v ss) (hw : IsOptionalSemi w) :
    ReadsStmt (.keyword .whileKw :: (u ++ (v ++ w))) (.loop e ss) := by
  intro rest hrest
  have hcond := he (v ++ (w ++ rest)) (hv _)
  rw [List.cons_append, List.append_assoc, List.append_assoc, stmt]
  have hloop : (whileStmt (.keyword .whileKw :: (u ++ (v ++ (w ++ rest))))).Yields (.loop e ss)
      (w ++ rest) := by
    rw [whileStmt]
    refine yields_expect_self.andThen fun _ ↦ hcond.andThen fun _ ↦ ?_
    exact (hss _).map.widen
  exact hloop.andThen fun _ ↦ Outcome.yields_ok.mpr ⟨rfl, skipSemi_append hw hrest⟩

theorem readsStmt_ifThen {u v w : List Token} {e : Expr} {ss : List Stmt} (he : ReadsExpr u e)
    (hv : ∀ rest, EndsExpr (v ++ rest)) (hss : ReadsBlock v ss) (hw : IsOptionalSemi w) :
    ReadsStmt (.keyword .ifKw :: (u ++ (v ++ w))) (.ifThen e ss) := by
  intro rest hrest
  have hcond := he (v ++ (w ++ rest)) (hv _)
  rw [List.cons_append, List.append_assoc, List.append_assoc, stmt]
  have hif : (ifStmt (.keyword .ifKw :: (u ++ (v ++ (w ++ rest))))).Yields (.ifThen e ss)
      (w ++ rest) := by
    rw [ifStmt]
    refine yields_expect_self.andThen fun _ ↦ hcond.andThen fun _ ↦ (hss _).andThen fun _ ↦ ?_
    split
    · next heq _ =>
      -- Behind the block there is a semicolon or the statement ends, so no alternative follows.
      rcases hw with rfl | rfl
      · rw [List.nil_append] at heq
        exact absurd (congrArg List.head? heq) hrest.2
      · exact absurd (List.cons.inj heq).1 (by decide)
    · exact Outcome.yields_ok.mpr ⟨rfl, rfl⟩
  exact hif.andThen fun _ ↦ Outcome.yields_ok.mpr ⟨rfl, skipSemi_append hw hrest⟩

theorem readsStmt_ifElse {u v v' w : List Token} {e : Expr} {ss ss' : List Stmt}
    (he : ReadsExpr u e) (hv : ∀ rest, EndsExpr (v ++ rest)) (hss : ReadsBlock v ss)
    (hss' : ReadsBlock v' ss') (hw : IsOptionalSemi w) :
    ReadsStmt (.keyword .ifKw :: (u ++ (v ++ .keyword .elseKw :: (v' ++ w))))
      (.ifElse e ss ss') := by
  intro rest hrest
  have hcond := he (v ++ .keyword .elseKw :: (v' ++ (w ++ rest))) (hv _)
  rw [List.cons_append, List.append_assoc, List.append_assoc, List.cons_append, List.append_assoc,
    stmt]
  have hif : (ifStmt (.keyword .ifKw ::
      (u ++ (v ++ .keyword .elseKw :: (v' ++ (w ++ rest)))))).Yields (.ifElse e ss ss')
        (w ++ rest) := by
    rw [ifStmt]
    refine yields_expect_self.andThen fun _ ↦ hcond.andThen fun _ ↦ (hss _).andThen fun _ ↦ ?_
    exact (hss' _).map.widen
  exact hif.andThen fun _ ↦ Outcome.yields_ok.mpr ⟨rfl, skipSemi_append hw hrest⟩

theorem readsStmts_one {u : List Token} {s : Stmt} (h : ReadsStmt u s) : ReadsStmts u [s] := by
  intro rest
  rw [stmts]
  exact (h _ (by simp [EndsStmt])).andThen fun _ ↦ Outcome.yields_ok.mpr ⟨rfl, rfl⟩

theorem readsStmts_cons {u v : List Token} {s : Stmt} {ss : List Stmt} (h : ReadsStmt u s)
    (hstarts : ∃ t w, v = t :: w ∧ startsStmt t = true) (hs : ReadsStmts v ss) :
    ReadsStmts (u ++ v) (s :: ss) := by
  intro rest
  have hothers := hs rest
  obtain ⟨t, w, rfl, ht⟩ := hstarts
  rw [stmts, List.append_assoc]
  refine (h _ (endsStmt_of_starts ht _)).andThen fun _ ↦ ?_
  split
  · next heq _ => exact absurd ((List.cons.inj heq).1 ▸ ht) (by decide)
  · exact hothers.map.widen

theorem readsBlock_of_stmts {u : List Token} {ss : List Stmt} (h : ReadsStmts u ss) :
    ReadsBlock (.mark .openBrace :: (u ++ [.mark .closeBrace])) ss := by
  intro rest
  rw [block, List.cons_append, List.append_assoc]
  exact yields_expect_self.andThen fun _ ↦ (h rest).widen

mutual

theorem readsStmt {u : List Token} {s : Stmt} : IsStmt ByPrecedence u s → ReadsStmt u s
  | .assign word value => readsStmt_assign word (readsExpr value)
  | .ret value => readsStmt_ret (readsExpr value)
  | .ifThen cond body semi =>
    readsStmt_ifThen (readsExpr cond) (endsExpr_of_isBlock body) (readsBlock body) semi
  | .ifElse cond body otherwise semi =>
    readsStmt_ifElse (readsExpr cond) (endsExpr_of_isBlock body) (readsBlock body)
      (readsBlock otherwise) semi
  | .loop cond body semi =>
    readsStmt_loop (readsExpr cond) (endsExpr_of_isBlock body) (readsBlock body) semi
  | .eval value => readsStmt_eval value
termination_by structural h => h

theorem readsStmts {u : List Token} {ss : List Stmt} :
    IsStmts ByPrecedence u ss → ReadsStmts u ss
  | .one only => readsStmts_one (readsStmt only)
  | .cons first others => readsStmts_cons (readsStmt first) others.starts (readsStmts others)
termination_by structural h => h

theorem readsBlock {u : List Token} {ss : List Stmt} : IsBlock ByPrecedence u ss → ReadsBlock u ss
  | .intro inner => readsBlock_of_stmts (readsStmts inner)
termination_by structural h => h

end

/-! ## Declarations -/

theorem yields_param {u : List Token} {p : Param} (h : IsParam u p) (rest : List Token) :
    (param (u ++ rest)).Yields p rest := by
  have hname (ident : String) :
      (expectName .expectedParamName (.name ident :: rest)).Yields ident rest :=
    yields_expectName_self
  cases h with
  | @double ident | @string ident =>
    rw [List.cons_append, param]
    exact (hname ident).map.widen

theorem yields_params {u : List Token} {ps : List Param} (h : IsParams u ps) (rest : List Token) :
    (params (u ++ .mark .closeParen :: rest)).Yields ps rest := by
  induction h with
  | one param =>
    rw [params]
    exact (yields_param param _).andThen fun _ ↦ Outcome.yields_ok.mpr ⟨rfl, rfl⟩
  | cons param _ ih =>
    rw [params, List.append_assoc]
    exact (yields_param param _).andThen fun _ ↦ ih.map.widen

theorem yields_prototype {u : List Token} {head : Prototype} (h : IsPrototype u head)
    (rest : List Token) : (prototype (u ++ rest)).Yields head rest := by
  cases h with
  | noParams =>
    refine Outcome.Yields.andThen (Outcome.yields_ok.mpr ⟨rfl, rfl⟩) fun _ ↦ ?_
    refine yields_expectName_self.andThen fun _ ↦ yields_expect_self.andThen fun _ ↦ ?_
    exact Outcome.yields_ok.mpr ⟨rfl, rfl⟩
  | params ps =>
    have hps := yields_params ps rest
    obtain ⟨t, v, rfl⟩ := ps.starts
    rw [List.cons_append, List.cons_append, List.cons_append, List.append_assoc]
    refine Outcome.Yields.andThen (Outcome.yields_ok.mpr ⟨rfl, rfl⟩) fun _ ↦ ?_
    refine yields_expectName_self.andThen fun _ ↦ yields_expect_self.andThen fun _ ↦ ?_
    exact hps.map.widen

theorem skipSemis_skipSemi (ts : List Token) : skipSemis (skipSemi ts) = skipSemis ts := by
  unfold skipSemi
  split
  · rw [skipSemis]
  · rfl

theorem skipSemis_append {w : List Token} (hw : IsOptionalSemi w) (rest : List Token) :
    skipSemis (w ++ rest) = skipSemis rest := by
  rcases hw with rfl | rfl
  · rfl
  · exact skipSemis.eq_1 rest

/-- A declaration is parsed from its tokens, up to semicolons that follow. Only a constant without a
semicolon could go on. -/
theorem yields_declaration {u rest : List Token} {d : Decl} (h : IsDecl ByPrecedence u d)
    (hrest : EndsExpr rest ∨ Closes u) :
    ∃ k v r, u = .keyword k :: v ∧ (declaration (.keyword k) (v ++ rest)).Yields d r ∧
      skipSemis r = skipSemis rest := by
  cases h with
  | @function u v head ss hprototype body =>
    refine ⟨.defKw, _, rest, rfl, ?_, rfl⟩
    have hfunction : (functionDecl (.keyword .defKw :: (u ++ (v ++ rest)))).Yields
        (.function head ss) rest :=
      yields_expect_self.andThen fun _ ↦ (yields_prototype hprototype _).andThen fun _ ↦
        (readsBlock body rest).map.widen
    rw [List.append_assoc]
    exact hfunction
  | @external u head hprototype =>
    refine ⟨.externKw, _, rest, rfl, ?_, rfl⟩
    have hexternal : (externalDecl (.keyword .externKw :: (u ++ .mark .semi :: rest))).Yields
        (.external head) rest :=
      yields_expect_self.andThen fun _ ↦ (yields_prototype hprototype _).andThen fun _ ↦
        yields_expect_self.map.widen
    rw [List.append_assoc]
    exact hexternal
  | @constant u w ident e value hw =>
    refine ⟨.constKw, _, skipSemi (w ++ rest), rfl, ?_, ?_⟩
    · have hends : EndsExpr (w ++ rest) := by
        rcases hw with rfl | rfl
        · refine hrest.resolve_right fun hcloses ↦ ?_
          obtain ⟨v, t, rfl, ht⟩ := value.ends
          rw [List.append_nil, ← List.cons_append, ← List.cons_append, ← List.cons_append, Closes,
            List.getLast?_concat] at hcloses
          rcases hcloses with ⟨⟨⟩⟩ | ⟨⟨⟩⟩ <;> exact nomatch ht
        · exact endsExpr_mark (by decide) _
      rw [List.cons_append, List.cons_append, List.append_assoc]
      exact (yields_assignment (readsExpr value) hends).andThen fun _ ↦
        Outcome.yields_ok.mpr ⟨rfl, rfl⟩
    · rw [skipSemis_skipSemi, skipSemis_append hw]

theorem endsExpr_of_isProgram {Reading : Expr → Chain → Expr → Prop} {v : List Token}
    {ds : List Decl} (h : IsProgram Reading v ds) : EndsExpr v := by
  cases h with
  | nil => exact ⟨nofun, nofun⟩
  | semi => exact endsExpr_mark (by decide) _
  | decl first =>
    cases first with
    | function | external | constant => exact ⟨by simp [EndsPrimary], by simp⟩

theorem yields_program_nil {ts : List Token} (h : skipSemis ts = []) :
    (program ts).Yields [] [] := by
  rw [program, nextDeclaration?_of_nil h]
  exact Outcome.yields_ok.mpr ⟨rfl, rfl⟩

theorem yields_program_cons {t : Token} {ts v r rest : List Token} {d : Decl} {ds : List Decl}
    (h : skipSemis ts = t :: v) (hd : (declaration t v).Yields d r)
    (hds : (program r).Yields ds rest) : (program ts).Yields (d :: ds) rest := by
  obtain ⟨hle, hnext⟩ := nextDeclaration?_of_cons h
  obtain ⟨hlt, hd⟩ := hd
  rw [program, hnext, hd]
  exact hds.map.widen

/-- A program by precedence is parsed from its tokens. -/
theorem yields_program {u : List Token} {ds : List Decl} (h : IsProgram ByPrecedence u ds) :
    (program u).Yields ds [] := by
  -- A declaration of a constant may take a semicolon of the program, so all that is known of the
  -- tokens left is what stands behind their semicolons.
  suffices hall : ∀ ts, skipSemis ts = skipSemis u → (program ts).Yields ds [] from hall u rfl
  induction h with
  | nil => exact fun ts hts ↦ yields_program_nil hts
  | semi _ ih => exact fun ts hts ↦ ih ts (hts.trans (by rw [skipSemis]))
  | decl first others ih =>
    intro ts hts
    obtain ⟨k, v, r, rfl, hd, hr⟩ := yields_declaration first (.inl (endsExpr_of_isProgram others))
    exact yields_program_cons (hts.trans (by simp [skipSemis])) hd (ih r hr)

/-! ## Recognition -/

/-- The parser yields the program by precedence, and fails if there is none. -/
theorem result_program_eq_ok_iff {ts : List Token} {ds : List Decl} :
    (program ts).result = .ok ds ↔ IsProgram ByPrecedence ts ds :=
  ⟨program_sound (fun _ _ _ h ↦ h) ts,
    fun h ↦ Outcome.result_eq_ok_iff.mpr ⟨[], yields_program h⟩⟩

/-- The parser succeeds exactly on the tokens of a program, with a program that they are the tokens
of, and reports a violation of the grammar on all others. -/
theorem program_accepts_grammar (ts : List Token) :
    ((∃ ds, (program ts).result = .ok ds) ↔ ∃ ds, IsProgram InOrder ts ds) ∧
      (∀ ds, (program ts).result = .ok ds → IsProgram InOrder ts ds) ∧
      ((¬∃ ds, IsProgram InOrder ts ds) →
        ∃ cause, (program ts).result = .error cause ∧ cause.diagnostic.category = .parse) := by
  have hsound : ∀ ds, (program ts).result = .ok ds → IsProgram InOrder ts ds :=
    fun _ ↦ program_sound (fun _ _ _ h ↦ h.inOrder) ts
  have hcomplete : (∃ ds, IsProgram InOrder ts ds) → ∃ ds, (program ts).result = .ok ds := by
    rintro ⟨ds, h⟩
    obtain ⟨ds', h'⟩ := exists_program h
    exact ⟨ds', result_program_eq_ok_iff.mpr h'⟩
  refine ⟨⟨fun ⟨ds, h⟩ ↦ ⟨ds, hsound ds h⟩, hcomplete⟩, hsound, fun hno ↦ ?_⟩
  cases hresult : (program ts).result with
  | ok ds => exact absurd ⟨ds, hsound ds hresult⟩ hno
  | error cause => exact ⟨cause, rfl, rfl⟩

end Parse

end BlockCompiler
