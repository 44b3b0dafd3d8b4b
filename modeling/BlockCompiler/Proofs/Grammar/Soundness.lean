import BlockCompiler.Proofs.Grammar
import BlockCompiler.Proofs.Outcome

/-!
# What is parsed is a phrase

A step of the parser that succeeds takes the tokens of a phrase from the front, and its value is the
tree of the phrase (`Parse.Sound`). The proofs follow the recursion of the parser.

## Climbing

The loop over operators (`Parse.operators`) holds the tree of the chain that it has read. It goes on
only at an operator that binds no tighter than those in the tree, since a tighter one has been
taken by the operand in front of it. So the operator becomes the root of a tree by precedence
(`Parse.OperatorsSound`).
-/

namespace BlockCompiler

namespace Parse

open Grammar

/-- What the step takes from the tokens is a phrase. -/
def Sound {α : Type} (parse : (ts : List Token) → Outcome α ts.length)
    (IsPhrase : List Token → α → Prop) (ts : List Token) : Prop :=
  ∀ a rest, (parse ts).Yields a rest → ∃ u, ts = u ++ rest ∧ IsPhrase u a

/-- A phrase with a closing mark behind it. -/
def UpTo {α : Type} (m : Mark) (IsPhrase : List Token → α → Prop) (u : List Token) (a : α) :
    Prop :=
  ∃ v, u = v ++ [.mark m] ∧ IsPhrase v a

section

variable {Reading : Expr → Chain → Expr → Prop}

/-! ## Expressions -/

/-- The loop takes operators that bind at least as tight as `least`, up to one that does not, and
the tree that it yields continues the one that it starts with. -/
def OperatorsSound (Reading : Expr → Chain → Expr → Prop) (least : Nat) (lhs : Expr)
    (ts : List Token) : Prop :=
  ∀ e rest, (operators least lhs ts).Yields e rest → ∀ p c, ByPrecedence p c lhs →
    (∀ op r, ts = .operator op :: r → least ≤ op.precedence →
      ∀ x ∈ c, op.precedence ≤ x.1.precedence) →
    ∃ v c', ts = v ++ rest ∧ IsOperands Reading v c' ∧ ByPrecedence p (c ++ c') e ∧
      (∀ x ∈ c', least ≤ x.1.precedence) ∧
      ∀ op r, rest = .operator op :: r → op.precedence < least

theorem operatorsSound_of_stop {least : Nat} {lhs : Expr} {ts : List Token}
    (hyields : ∀ e rest, (operators least lhs ts).Yields e rest → e = lhs ∧ rest = ts)
    (hstop : ∀ op r, ts = .operator op :: r → op.precedence < least) :
    OperatorsSound Reading least lhs ts := by
  intro e rest h p c hc _
  obtain ⟨rfl, rfl⟩ := hyields e rest h
  exact ⟨[], [], rfl, .nil, by rwa [List.append_nil], by simp, hstop⟩

theorem operatorsSound_step {least : Nat} {lhs : Expr} {op : Operator} {rest : List Token}
    (hle : least ≤ op.precedence) (hprimary : Sound primary (IsPrimary Reading) rest)
    (hright : ∀ q (r : List Token), r.length < rest.length →
      OperatorsSound Reading (op.precedence + 1) q r)
    (hgo : ∀ r : List Token, r.length < rest.length → ∀ rhs (r' : List Token),
      r'.length < r.length + 1 →
      OperatorsSound Reading least (.binary op lhs rhs) r') :
    OperatorsSound Reading least lhs (.operator op :: rest) := by
  intro e rest' h p c hc hroot
  rw [operators, if_pos hle] at h
  obtain ⟨q, r₁, hr₁, hq, hbehind⟩ := Outcome.yields_andThen.mp h
  obtain ⟨rhs, r₂, hr₂, hrhs, hrest⟩ := Outcome.yields_andThen.mp hbehind
  rw [Outcome.yields_widen] at hrest
  obtain ⟨u, rfl, hu⟩ := hprimary q r₁ hq
  obtain ⟨v, c₁, rfl, hv, hc₁, htighter, hstop⟩ :=
    hright q r₁ hr₁ rhs r₂ hrhs q [] .operand (by simp)
  have htree : ByPrecedence p (c ++ (op, q) :: c₁) (.binary op lhs rhs) :=
    .node hc hc₁ (hroot op _ rfl hle) htighter
  -- The next operator binds no tighter than this one, nor than any that it binds tighter than.
  have hnext : ∀ op' r, r₂ = .operator op' :: r → least ≤ op'.precedence →
      ∀ x ∈ c ++ (op, q) :: c₁, op'.precedence ≤ x.1.precedence := by
    intro op' r heq _ x hx
    have hle' : op'.precedence ≤ op.precedence := Nat.lt_succ_iff.mp (hstop op' r heq)
    rcases List.mem_append.mp hx with hx | hx
    · exact Nat.le_trans hle' (hroot op _ rfl hle x hx)
    · rcases List.mem_cons.mp hx with rfl | hx
      · exact hle'
      · exact Nat.le_trans hle' (Nat.le_of_lt (htighter x hx))
  obtain ⟨w, c₂, rfl, hw, he, hleast, hstop'⟩ :=
    hgo _ hr₁ rhs r₂ hr₂ e rest' hrest p _ htree hnext
  refine ⟨.operator op :: (u ++ (v ++ w)), (op, q) :: (c₁ ++ c₂), by simp,
    .cons hu (hv.append _ hw), by simpa using he,
    List.forall_mem_cons.mpr ⟨hle, fun x hx ↦ ?_⟩, hstop'⟩
  rcases List.mem_append.mp hx with hx | hx
  · exact Nat.le_trans hle (Nat.le_of_lt (htighter x hx))
  · exact hleast x hx

theorem expr_sound_of (hle : ∀ p c e, ByPrecedence p c e → Reading p c e) {ts : List Token}
    (hprimary : Sound primary (IsPrimary Reading) ts)
    (hoperators : ∀ lhs (rest : List Token), rest.length < ts.length →
      OperatorsSound Reading 0 lhs rest) : Sound expr (IsExpr Reading) ts := by
  intro e rest h
  rw [expr] at h
  obtain ⟨p, r, hr, hp, hloop⟩ := Outcome.yields_andThen.mp h
  rw [Outcome.yields_widen] at hloop
  obtain ⟨u, rfl, hu⟩ := hprimary p r hp
  obtain ⟨v, c, rfl, hv, htree, -, -⟩ :=
    hoperators p r hr e rest hloop p [] .operand (by simp)
  exact ⟨u ++ v, by rw [List.append_assoc], .intro hu hv (hle _ _ _ htree)⟩

theorem literal_sound (ts : List Token) : Sound literal (IsPrimary Reading) ts := by
  intro e rest h
  unfold literal at h
  split at h
  · obtain ⟨rfl, rfl⟩ := Outcome.yields_ok.mp h
    exact ⟨[_], rfl, .number⟩
  · obtain ⟨rfl, rfl⟩ := Outcome.yields_ok.mp h
    exact ⟨[_], rfl, .text⟩
  · exact absurd h Outcome.not_yields_error
  · exact absurd h Outcome.not_yields_error

theorem parenthesised_sound_of {ts : List Token}
    (hexpr : ∀ rest : List Token, rest.length < ts.length → Sound expr (IsExpr Reading) rest) :
    Sound parenthesised (IsPrimary Reading) ts := by
  intro e rest h
  rw [parenthesised] at h
  obtain ⟨_, r, hr, hopen, hinner⟩ := Outcome.yields_andThen.mp h
  obtain ⟨e', r', hr', he, hbehind⟩ := Outcome.yields_andThen.mp hinner
  obtain ⟨_, r'', hr'', hclose, hok⟩ := Outcome.yields_andThen.mp hbehind
  obtain ⟨rfl, rfl⟩ := Outcome.yields_ok.mp hok
  obtain ⟨u, rfl, hu⟩ := hexpr r hr e' r' he
  rw [yields_expect] at hopen hclose
  subst hopen hclose
  exact ⟨_, by simp, .paren hu⟩

theorem arguments_sound_of {ts : List Token} (hexpr : Sound expr (IsExpr Reading) ts)
    (hothers : ∀ rest : List Token, (Token.mark .comma :: rest).length < ts.length →
      Sound arguments (UpTo .closeParen (IsArgs Reading)) rest) :
    Sound arguments (UpTo .closeParen (IsArgs Reading)) ts := by
  intro es rest h
  rw [arguments] at h
  obtain ⟨e, r, hr, he, hbehind⟩ := Outcome.yields_andThen.mp h
  obtain ⟨u, rfl, hu⟩ := hexpr e r he
  split at hbehind
  · obtain ⟨rfl, rfl⟩ := Outcome.yields_ok.mp hbehind
    exact ⟨u ++ [.mark .closeParen], by simp, u, rfl, .one hu⟩
  · rw [Outcome.yields_widen, Outcome.yields_map] at hbehind
    obtain ⟨es', hes, rfl⟩ := hbehind
    obtain ⟨_, rfl, v, rfl, hv⟩ := hothers _ hr es' rest hes
    exact ⟨u ++ .mark .comma :: (v ++ [.mark .closeParen]), by simp, u ++ .mark .comma :: v,
      by simp, .cons hu hv⟩
  · exact absurd hbehind Outcome.not_yields_error

theorem nameOrCall_sound_of {ts : List Token}
    (hargs : ∀ rest : List Token, (Token.mark .openParen :: rest).length < ts.length →
      Sound arguments (UpTo .closeParen (IsArgs Reading)) rest) :
    Sound nameOrCall (IsPrimary Reading) ts := by
  intro e rest h
  rw [nameOrCall] at h
  obtain ⟨ident, r, hr, hname, hbehind⟩ := Outcome.yields_andThen.mp h
  rw [yields_expectName] at hname
  split at hbehind
  · obtain ⟨rfl, rfl⟩ := Outcome.yields_ok.mp hbehind
    exact ⟨[.name ident, .mark .openParen, .mark .closeParen], hname, .callNone⟩
  · next hlt _ =>
    rw [Outcome.yields_widen, Outcome.yields_map] at hbehind
    obtain ⟨es, hes, rfl⟩ := hbehind
    obtain ⟨_, rfl, v, rfl, hv⟩ := hargs _ hlt es rest hes
    exact ⟨.name ident :: .mark .openParen :: (v ++ [.mark .closeParen]), by simpa using hname,
      .call hv⟩
  · obtain ⟨rfl, rfl⟩ := Outcome.yields_ok.mp hbehind
    exact ⟨[.name ident], hname, .name⟩

theorem primary_sound_of {ts : List Token}
    (hname : ∀ ident, ts.head? = some (.name ident) → Sound nameOrCall (IsPrimary Reading) ts)
    (hparen : ts.head? = some (.mark .openParen) → Sound parenthesised (IsPrimary Reading) ts) :
    Sound primary (IsPrimary Reading) ts := by
  intro e rest h
  rw [primary] at h
  split at h
  · exact literal_sound ts e rest h
  · exact literal_sound ts e rest h
  · next ident hhead => exact hname ident hhead e rest h
  · next hhead => exact hparen hhead e rest h
  · exact absurd h Outcome.not_yields_error

/-- What an expression is parsed from is the tokens of an expression. -/
theorem expr_sound (hle : ∀ p c e, ByPrecedence p c e → Reading p c e) (ts : List Token) :
    Sound expr (IsExpr Reading) ts := by
  refine (expr.mutual_induct (Sound expr (IsExpr Reading)) (OperatorsSound Reading)
    (Sound primary (IsPrimary Reading)) (Sound parenthesised (IsPrimary Reading))
    (Sound nameOrCall (IsPrimary Reading))
    (Sound arguments (UpTo .closeParen (IsArgs Reading)))
    (fun _ ↦ expr_sound_of hle) (fun _ _ _ _ hle ↦ operatorsSound_step hle)
    ?tooLoose ?noOperator ?number ?text ?name ?openParen ?other
    (fun _ ↦ parenthesised_sound_of) (fun _ ↦ nameOrCall_sound_of)
    fun _ ↦ arguments_sound_of).1 ts
  case tooLoose =>
    intro least lhs op rest hloose
    refine operatorsSound_of_stop (fun e r h ↦ ?_) fun op' r heq ↦ ?_
    · rw [operators, if_neg hloose] at h
      obtain ⟨rfl, rfl⟩ := Outcome.yields_ok.mp h
      exact ⟨rfl, rfl⟩
    · obtain ⟨⟨⟩, -⟩ := List.cons.inj heq
      exact Nat.lt_of_not_le hloose
  case noOperator =>
    intro least lhs ts hno
    refine operatorsSound_of_stop (fun e r h ↦ ?_) fun op r heq ↦ (hno op r heq).elim
    rw [operators] at h
    · obtain ⟨rfl, rfl⟩ := Outcome.yields_ok.mp h
      exact ⟨rfl, rfl⟩
    · exact hno
  case number => exact fun ts x hhead ↦ primary_sound_of (by simp [hhead]) (by simp [hhead])
  case text => exact fun ts s hhead ↦ primary_sound_of (by simp [hhead]) (by simp [hhead])
  case name => exact fun ts _ hhead ih ↦ primary_sound_of (fun _ _ ↦ ih) (by simp [hhead])
  case openParen => exact fun ts hhead ih ↦ primary_sound_of (by simp [hhead]) fun _ ↦ ih
  case other =>
    exact fun ts _ _ hname hparen ↦
      primary_sound_of (fun ident hhead ↦ (hname ident hhead).elim) fun hhead ↦ (hparen hhead).elim

/-! ## Statements -/

theorem assignment_sound (hle : ∀ p c e, ByPrecedence p c e → Reading p c e)
    {ts rest : List Token} {ident : String} {e : Expr}
    (h : (assignment ts).Yields (ident, e) rest) :
    ∃ u, ts.tail = .name ident :: .operator .equal :: (u ++ rest) ∧ IsExpr Reading u e := by
  unfold assignment at h
  obtain ⟨ident', r, hr, hname, hbehind⟩ := Outcome.yields_andThen.mp h
  obtain ⟨_, r', hr', hequal, hvalue⟩ := Outcome.yields_andThen.mp hbehind
  rw [Outcome.yields_widen, Outcome.yields_map] at hvalue
  obtain ⟨e', he, heq⟩ := hvalue
  obtain ⟨rfl, rfl⟩ := Prod.mk.inj heq
  obtain ⟨u, rfl, hu⟩ := expr_sound hle r' e' rest he
  rw [yields_expectName] at hname
  rw [yields_expect] at hequal
  exact ⟨u, by rw [hname, hequal], hu⟩

/-- A statement in front of its semicolon. -/
theorem simpleStmt_sound (hle : ∀ p c e, ByPrecedence p c e → Reading p c e)
    {ts rest : List Token} {s : Stmt} (h : (simpleStmt ts).Yields s (.mark .semi :: rest)) :
    ∃ u, ts = u ++ rest ∧ IsStmt Reading u s := by
  have hassign (k : Keyword) (hk : IsAssigner k) (hhead : ts.head? = some (.keyword k))
      (h : ((assignment ts).map fun pair ↦ Stmt.assign pair.1 pair.2).Yields s
        (.mark .semi :: rest)) : ∃ u, ts = u ++ rest ∧ IsStmt Reading u s := by
    obtain ⟨⟨ident, e⟩, hvalue, rfl⟩ := Outcome.yields_map.mp h
    obtain ⟨u, htail, hu⟩ := assignment_sound hle hvalue
    obtain ⟨ts', rfl⟩ := List.head?_eq_some_iff.mp hhead
    rw [List.tail_cons] at htail
    exact ⟨_, by simp [htail], .assign hk hu⟩
  unfold simpleStmt at h
  split at h
  · next hhead => exact hassign .setKw (.inl rfl) hhead h
  · next hhead => exact hassign .constKw (.inr rfl) hhead h
  · unfold returned at h
    obtain ⟨_, r, hr, hword, hvalue⟩ := Outcome.yields_andThen.mp h
    rw [Outcome.yields_widen, Outcome.yields_map] at hvalue
    obtain ⟨e, he, rfl⟩ := hvalue
    obtain ⟨u, rfl, hu⟩ := expr_sound hle r e _ he
    rw [yields_expect] at hword
    exact ⟨_, by simp [hword], .ret hu⟩
  · obtain ⟨e, he, rfl⟩ := Outcome.yields_map.mp h
    obtain ⟨u, rfl, hu⟩ := expr_sound hle ts e _ he
    exact ⟨_, by simp, .eval hu⟩

/-- A statement behind which a semicolon may be left out. -/
def IsOpenStmt (Reading : Expr → Chain → Expr → Prop) (u : List Token) (s : Stmt) : Prop :=
  ∀ w, IsOptionalSemi w → IsStmt Reading (u ++ w) s

theorem exists_optionalSemi (ts : List Token) :
    ∃ w, IsOptionalSemi w ∧ ts = w ++ skipSemi ts := by
  unfold skipSemi
  split
  · exact ⟨[.mark .semi], .inr rfl, rfl⟩
  · exact ⟨[], .inl rfl, rfl⟩

/-- A semicolon that is there is taken. -/
theorem sound_skipSemi {ts rest r : List Token} {s : Stmt} (hrest : skipSemi r = rest)
    (h : ∃ u, ts = u ++ r ∧ IsOpenStmt Reading u s) :
    ∃ u, ts = u ++ rest ∧ IsStmt Reading u s := by
  obtain ⟨u, rfl, hu⟩ := h
  obtain ⟨w, hw, heq⟩ := exists_optionalSemi r
  exact ⟨u ++ w, by rw [List.append_assoc, ← hrest, ← heq], hu w hw⟩

theorem stmt_sound_of (hle : ∀ p c e, ByPrecedence p c e → Reading p c e) {ts : List Token}
    (hif : ts.head? = some (.keyword .ifKw) → Sound ifStmt (IsOpenStmt Reading) ts)
    (hwhile : ts.head? = some (.keyword .whileKw) → Sound whileStmt (IsOpenStmt Reading) ts) :
    Sound stmt (IsStmt Reading) ts := by
  intro s rest h
  rw [stmt] at h
  split at h
  · next hhead =>
    obtain ⟨s', r, hr, hs, hok⟩ := Outcome.yields_andThen.mp h
    obtain ⟨rfl, hrest⟩ := Outcome.yields_ok.mp hok
    exact sound_skipSemi hrest (hif hhead s' r hs)
  · next hhead =>
    obtain ⟨s', r, hr, hs, hok⟩ := Outcome.yields_andThen.mp h
    obtain ⟨rfl, hrest⟩ := Outcome.yields_ok.mp hok
    exact sound_skipSemi hrest (hwhile hhead s' r hs)
  · obtain ⟨s', r, hr, hs, hsemi⟩ := Outcome.yields_andThen.mp h
    rw [Outcome.yields_widen, Outcome.yields_map] at hsemi
    obtain ⟨_, hsemi, rfl⟩ := hsemi
    exact simpleStmt_sound hle (yields_expect.mp hsemi ▸ hs)

theorem whileStmt_sound_of (hle : ∀ p c e, ByPrecedence p c e → Reading p c e) {ts : List Token}
    (hblock : ∀ r₁ : List Token, r₁.length < ts.length → ∀ r₂ : List Token,
      r₂.length < r₁.length → Sound block (IsBlock Reading) r₂) :
    Sound whileStmt (IsOpenStmt Reading) ts := by
  intro s rest h
  rw [whileStmt] at h
  obtain ⟨_, r₁, hr₁, hword, hcond⟩ := Outcome.yields_andThen.mp h
  obtain ⟨e, r₂, hr₂, he, hbody⟩ := Outcome.yields_andThen.mp hcond
  rw [Outcome.yields_widen, Outcome.yields_map] at hbody
  obtain ⟨ss, hss, rfl⟩ := hbody
  obtain ⟨v, rfl, hv⟩ := hblock r₁ hr₁ r₂ hr₂ ss rest hss
  obtain ⟨u, rfl, hu⟩ := expr_sound hle r₁ e _ he
  rw [yields_expect] at hword
  refine ⟨.keyword .whileKw :: (u ++ v), by simp [hword], fun w hw ↦ ?_⟩
  rw [List.cons_append, List.append_assoc]
  exact .loop hu hv hw

theorem ifStmt_sound_of (hle : ∀ p c e, ByPrecedence p c e → Reading p c e) {ts : List Token}
    (hblock : ∀ r₁ : List Token, r₁.length < ts.length → ∀ r₂ : List Token,
      r₂.length < r₁.length → Sound block (IsBlock Reading) r₂)
    (hotherwise : ∀ r₁ : List Token, r₁.length < ts.length →
      ∀ r₂ : List Token, r₂.length < r₁.length →
      ∀ r₃ : List Token, (Token.keyword .elseKw :: r₃).length < r₂.length →
      Sound block (IsBlock Reading) r₃) : Sound ifStmt (IsOpenStmt Reading) ts := by
  intro s rest h
  rw [ifStmt] at h
  obtain ⟨_, r₁, hr₁, hword, hcond⟩ := Outcome.yields_andThen.mp h
  obtain ⟨e, r₂, hr₂, he, hbody⟩ := Outcome.yields_andThen.mp hcond
  obtain ⟨ss, r₃, hr₃, hss, hbehind⟩ := Outcome.yields_andThen.mp hbody
  obtain ⟨v, rfl, hv⟩ := hblock r₁ hr₁ r₂ hr₂ ss r₃ hss
  obtain ⟨u, rfl, hu⟩ := expr_sound hle r₁ e _ he
  rw [yields_expect] at hword
  split at hbehind
  · next r₄ _ =>
    rw [Outcome.yields_widen, Outcome.yields_map] at hbehind
    obtain ⟨ss', hss', rfl⟩ := hbehind
    obtain ⟨v', rfl, hv'⟩ := hotherwise _ hr₁ _ hr₂ r₄ hr₃ ss' rest hss'
    refine ⟨.keyword .ifKw :: (u ++ (v ++ .keyword .elseKw :: v')), by simp [hword],
      fun w hw ↦ ?_⟩
    simpa using IsStmt.ifElse hu hv hv' hw
  · obtain ⟨rfl, rfl⟩ := Outcome.yields_ok.mp hbehind
    refine ⟨.keyword .ifKw :: (u ++ v), by simp [hword], fun w hw ↦ ?_⟩
    simpa using IsStmt.ifThen hu hv hw

theorem block_sound_of {ts : List Token}
    (hstmts : ∀ rest : List Token, rest.length < ts.length →
      Sound stmts (UpTo .closeBrace (IsStmts Reading)) rest) :
    Sound block (IsBlock Reading) ts := by
  intro ss rest h
  rw [block] at h
  obtain ⟨_, r, hr, hopen, hinner⟩ := Outcome.yields_andThen.mp h
  rw [Outcome.yields_widen] at hinner
  obtain ⟨_, rfl, u, rfl, hu⟩ := hstmts r hr ss rest hinner
  rw [yields_expect] at hopen
  exact ⟨_, by simp [hopen], .intro hu⟩

theorem stmts_sound_of {ts : List Token} (hstmt : Sound stmt (IsStmt Reading) ts)
    (hothers : ∀ rest : List Token, rest.length < ts.length →
      Sound stmts (UpTo .closeBrace (IsStmts Reading)) rest) :
    Sound stmts (UpTo .closeBrace (IsStmts Reading)) ts := by
  intro ss rest h
  rw [stmts] at h
  obtain ⟨s, r, hr, hs, hbehind⟩ := Outcome.yields_andThen.mp h
  obtain ⟨u, rfl, hu⟩ := hstmt s r hs
  split at hbehind
  · obtain ⟨rfl, rfl⟩ := Outcome.yields_ok.mp hbehind
    exact ⟨u ++ [.mark .closeBrace], by simp, u, rfl, .one hu⟩
  · rw [Outcome.yields_widen, Outcome.yields_map] at hbehind
    obtain ⟨ss', hss, rfl⟩ := hbehind
    obtain ⟨_, rfl, v, rfl, hv⟩ := hothers _ hr ss' rest hss
    exact ⟨u ++ (v ++ [.mark .closeBrace]), by simp, u ++ v, by simp, .cons hu hv⟩

theorem block_sound (hle : ∀ p c e, ByPrecedence p c e → Reading p c e) (ts : List Token) :
    Sound block (IsBlock Reading) ts :=
  (stmt.mutual_induct (Sound stmt (IsStmt Reading)) (Sound whileStmt (IsOpenStmt Reading))
    (Sound block (IsBlock Reading)) (Sound stmts (UpTo .closeBrace (IsStmts Reading)))
    (Sound ifStmt (IsOpenStmt Reading))
    (fun _ hhead ih ↦ stmt_sound_of hle (fun _ ↦ ih) (by simp [hhead]))
    (fun _ hhead ih ↦ stmt_sound_of hle (by simp [hhead]) fun _ ↦ ih)
    (fun _ hif hwhile ↦ stmt_sound_of hle (fun h ↦ (hif h).elim) fun h ↦ (hwhile h).elim)
    (fun _ ↦ whileStmt_sound_of hle) (fun _ ↦ block_sound_of) (fun _ ↦ stmts_sound_of)
    fun _ ↦ ifStmt_sound_of hle).2.2.1 ts

/-! ## Declarations -/

theorem param_sound (ts : List Token) : Sound param IsParam ts := by
  intro p rest h
  unfold param at h
  split at h
  · rw [Outcome.yields_widen, Outcome.yields_map] at h
    obtain ⟨ident, hname, rfl⟩ := h
    exact ⟨_, by rw [yields_expectName.mp hname]; rfl, .double⟩
  · rw [Outcome.yields_widen, Outcome.yields_map] at h
    obtain ⟨ident, hname, rfl⟩ := h
    exact ⟨_, by rw [yields_expectName.mp hname]; rfl, .string⟩
  · exact absurd h Outcome.not_yields_error

theorem params_sound (ts : List Token) : Sound params (UpTo .closeParen IsParams) ts := by
  induction ts using params.induct with
  | case1 ts ih =>
    intro ps rest h
    rw [params] at h
    obtain ⟨p, r, hr, hp, hbehind⟩ := Outcome.yields_andThen.mp h
    obtain ⟨u, rfl, hu⟩ := param_sound ts p r hp
    split at hbehind
    · obtain ⟨rfl, rfl⟩ := Outcome.yields_ok.mp hbehind
      exact ⟨u ++ [.mark .closeParen], by simp, u, rfl, .one hu⟩
    · rw [Outcome.yields_widen, Outcome.yields_map] at hbehind
      obtain ⟨ps', hps, rfl⟩ := hbehind
      obtain ⟨_, rfl, v, rfl, hv⟩ := ih _ hr ps' rest hps
      exact ⟨u ++ .mark .comma :: (v ++ [.mark .closeParen]), by simp, u ++ .mark .comma :: v,
        by simp, .cons hu hv⟩
    · exact absurd hbehind Outcome.not_yields_error

theorem prototype_sound (ts : List Token) : Sound prototype IsPrototype ts := by
  intro head rest h
  unfold prototype at h
  obtain ⟨ret, r₁, hr₁, hret, hbehind⟩ := Outcome.yields_andThen.mp h
  obtain ⟨ident, r₂, hr₂, hname, hparams⟩ := Outcome.yields_andThen.mp hbehind
  obtain ⟨_, r₃, hr₃, hopen, hclose⟩ := Outcome.yields_andThen.mp hparams
  rw [yields_expectName] at hname
  rw [yields_expect] at hopen
  unfold returnType at hret
  split at hret
  · obtain ⟨rfl, rfl⟩ := Outcome.yields_ok.mp hret
    split at hclose
    · obtain ⟨rfl, rfl⟩ := Outcome.yields_ok.mp hclose
      exact ⟨_, by rw [hname, hopen]; rfl, .noParams⟩
    · rw [Outcome.yields_widen, Outcome.yields_map] at hclose
      obtain ⟨ps, hps, rfl⟩ := hclose
      obtain ⟨_, rfl, u, rfl, hu⟩ := params_sound _ ps rest hps
      exact ⟨_, by rw [hname, hopen]; simp, .params hu⟩
  · exact absurd hret Outcome.not_yields_error

theorem declaration_sound (hle : ∀ p c e, ByPrecedence p c e → Reading p c e) {t : Token}
    {ts rest : List Token} {d : Decl} (h : (declaration t ts).Yields d rest) :
    ∃ u, t :: ts = u ++ rest ∧ IsDecl Reading u d := by
  unfold declaration at h
  split at h
  · unfold functionDecl at h
    obtain ⟨_, r₁, hr₁, hword, hhead⟩ := Outcome.yields_andThen.mp h
    obtain ⟨head, r₂, hr₂, hprototype, hbody⟩ := Outcome.yields_andThen.mp hhead
    rw [Outcome.yields_widen, Outcome.yields_map] at hbody
    obtain ⟨ss, hss, rfl⟩ := hbody
    obtain ⟨v, rfl, hv⟩ := block_sound hle r₂ ss rest hss
    obtain ⟨u, rfl, hu⟩ := prototype_sound r₁ head _ hprototype
    exact ⟨_, by rw [yields_expect.mp hword]; simp, .function hu hv⟩
  · unfold externalDecl at h
    obtain ⟨_, r₁, hr₁, hword, hhead⟩ := Outcome.yields_andThen.mp h
    obtain ⟨head, r₂, hr₂, hprototype, hsemi⟩ := Outcome.yields_andThen.mp hhead
    rw [Outcome.yields_widen, Outcome.yields_map] at hsemi
    obtain ⟨_, hsemi, rfl⟩ := hsemi
    obtain ⟨u, rfl, hu⟩ := prototype_sound r₁ head _ hprototype
    exact ⟨_, by rw [yields_expect.mp hword, yields_expect.mp hsemi]; simp, .external hu⟩
  · unfold constantDecl at h
    obtain ⟨⟨ident, e⟩, r, hr, hvalue, hok⟩ := Outcome.yields_andThen.mp h
    obtain ⟨rfl, rfl⟩ := Outcome.yields_ok.mp hok
    obtain ⟨u, htail, hu⟩ := assignment_sound hle hvalue
    obtain ⟨w, hw, heq⟩ := exists_optionalSemi r
    rw [List.tail_cons] at htail
    refine ⟨_, ?_, .constant hu hw⟩
    rw [htail, List.cons_append, List.cons_append, List.cons_append, List.append_assoc, ← heq]
  · exact absurd h Outcome.not_yields_error

/-- Semicolons in front of a declaration belong to no phrase but the program. -/
theorem exists_semis (Reading : Expr → Chain → Expr → Prop) (ts : List Token) :
    ∃ w, ts = w ++ skipSemis ts ∧
      ∀ v ds, IsProgram Reading v ds → IsProgram Reading (w ++ v) ds := by
  fun_induction skipSemis ts with
  | case1 rest ih =>
    obtain ⟨w, heq, hw⟩ := ih
    exact ⟨.mark .semi :: w, by rw [List.cons_append, ← heq],
      fun v ds h ↦ .semi (hw v ds h)⟩
  | case2 => exact ⟨[], rfl, fun _ _ h ↦ h⟩

theorem isProgram_of_none {ts : List Token} (h : nextDeclaration? ts = none) :
    IsProgram Reading ts [] := by
  obtain ⟨w, heq, hw⟩ := exists_semis Reading ts
  unfold nextDeclaration? at h
  split at h
  · next hskip _ =>
    rw [heq, hskip]
    exact hw [] [] .nil
  · exact absurd h (by simp)

theorem isProgram_of_nextDeclaration? (hle : ∀ p c e, ByPrecedence p c e → Reading p c e)
    {ts rest : List Token} {d : Decl} {ds : List Decl} {hlt : rest.length < ts.length}
    (h : nextDeclaration? ts = some (.ok d rest hlt)) (hothers : IsProgram Reading rest ds) :
    IsProgram Reading ts (d :: ds) := by
  obtain ⟨w, heq, hw⟩ := exists_semis Reading ts
  unfold nextDeclaration? at h
  split at h
  · exact absurd h (by simp)
  · next t r hle' hskip _ =>
    have hdecl : (declaration t r).Yields d rest :=
      Outcome.yields_widen.mp ⟨hlt, Option.some.inj h⟩
    obtain ⟨u, hu, hd⟩ := declaration_sound hle hdecl
    rw [heq, hskip, hu]
    exact hw _ _ (.decl hd hothers)

/-- What a program is parsed from is the tokens of a program. -/
theorem program_sound (hle : ∀ p c e, ByPrecedence p c e → Reading p c e) (ts : List Token)
    {ds : List Decl} (h : (program ts).result = .ok ds) : IsProgram Reading ts ds := by
  induction ts using program.induct generalizing ds with
  | case1 ts hnone =>
    rw [program, hnone] at h
    obtain rfl := Except.ok.inj h
    exact isProgram_of_none hnone
  | case2 ts cause rest herror =>
    rw [program, herror] at h
    exact absurd h (by simp [Outcome.result])
  | case3 ts d r hlt hdecl ih =>
    obtain ⟨rest, hyields⟩ := Outcome.result_eq_ok_iff.mp h
    rw [program, hdecl] at hyields
    simp only [Outcome.yields_widen, Outcome.yields_map] at hyields
    obtain ⟨ds', hds, rfl⟩ := hyields
    exact isProgram_of_nextDeclaration? hle hdecl
      (ih (Outcome.result_eq_ok_iff.mpr ⟨rest, hds⟩))

end

end Parse

end BlockCompiler
