import BlockCompiler.Proofs.ParseFailure

/-!
# One token of lookahead

A call of the parser answers with a tree or with an error, and it takes some of its tokens. The
tokens that it takes and the one behind them settle the answer: from all tokens that start with
these the call answers the same, and it takes as many (`Call.run_eq_of_take_eq`).

The statement is about two runs, and the parts of a construct do not start from the same tokens in
both. So the run of a part is compared with a family of runs, one for each way in which the
constructs around it may have come to it (`Settled`), and the rules for this relation follow the
combinators of the parser.
-/

namespace BlockCompiler

namespace Outcome

variable {α β : Type} {m n : Nat} {rest : List Token}

/-- The value or the cause of failure, and the tokens left. -/
def answer (o : Outcome α n) : Except ParseError α × List Token := (o.result, o.rest)

@[simp] theorem answer_ok {a : α} {h : rest.length < n} :
    (ok a rest h : Outcome α n).answer = (.ok a, rest) :=
  rfl

@[simp] theorem answer_error {cause : ParseError} :
    (error cause rest : Outcome α n).answer = (.error cause, rest) :=
  rfl

@[simp] theorem answer_map {f : α → β} {o : Outcome α n} :
    (o.map f).answer = (o.answer.1.map f, o.answer.2) := by
  cases o <;> rfl

@[simp] theorem answer_widen {o : Outcome α n} {h : n ≤ m} : (o.widen h).answer = o.answer := by
  cases o <;> rfl

theorem answer_andThen_of_error {o : Outcome α n}
    {f : α → (rest : List Token) → rest.length < n → Outcome β m} {cause : ParseError}
    (h : o.answer = (.error cause, rest)) : (o.andThen f).answer = (.error cause, rest) := by
  cases o with
  | ok => exact absurd (Prod.mk.inj h).1 (by simp [result])
  | error =>
    obtain ⟨rfl, rfl⟩ : _ = cause ∧ _ = rest := by simpa using h
    rfl

theorem answer_andThen_of_ok {o : Outcome α n}
    {f : α → (rest : List Token) → rest.length < n → Outcome β m} {a : α}
    (h : o.answer = (.ok a, rest)) : ∃ hlt, (o.andThen f).answer = (f a rest hlt).answer := by
  cases o with
  | ok =>
    obtain ⟨rfl, rfl⟩ : _ = a ∧ _ = rest := by simpa using h
    exact ⟨_, rfl⟩
  | error => exact absurd (Prod.mk.inj h).1 (by simp [result])

end Outcome

namespace Parse

/-- The tokens that were taken off `ts`, and the one behind them, settle the answer: a run of the
family whose tokens start with these too gives the same answer, with its own tokens behind. -/
def Settled {α ι : Type} (ts : List Token) (tokens : ι → List Token)
    (ans : Except ParseError α × List Token) (again : ι → Except ParseError α × List Token) :
    Prop :=
  ∃ taken, ts = taken ++ ans.2 ∧
    ∀ i rest, tokens i = taken ++ rest → rest.head? = ans.2.head? → again i = (ans.1, rest)

/-- The runs of one parser on all tokens, compared with its run on `ts`. -/
def LooksAhead {α : Type} {bound : List Token → Nat}
    (p : (ts : List Token) → Outcome α (bound ts)) (ts : List Token) : Prop :=
  Settled ts id (p ts).answer fun ts' ↦ (p ts').answer

namespace Settled

variable {α β ι : Type} {n k : Nat} {m l : ι → Nat} {ts : List Token} {tokens : ι → List Token}
  {ans : Except ParseError α × List Token} {again again' : ι → Except ParseError α × List Token}
  {o : Outcome α n} {o' : (i : ι) → Outcome α (m i)}

/-- Only runs that start with the same token count. -/
theorem congr_head (h : Settled ts tokens ans again)
    (heq : ∀ i, (tokens i).head? = ts.head? → again' i = again i) :
    Settled ts tokens ans again' := by
  obtain ⟨taken, hts, hagain⟩ := h
  refine ⟨taken, hts, fun i rest hi hrest ↦ ?_⟩
  rw [← hagain i rest hi hrest]
  refine heq i ?_
  rw [hi, hts, List.head?_append, List.head?_append, hrest]

/-- No token is taken. -/
theorem of_head {r : Except ParseError α}
    (h : ∀ i, (tokens i).head? = ts.head? → again i = (r, tokens i)) :
    Settled ts tokens (r, ts) again := by
  refine ⟨[], rfl, fun i rest hi hrest ↦ ?_⟩
  obtain rfl : tokens i = rest := hi
  exact h i hrest

/-- One token is taken first. -/
theorem cons {t : Token} {behind : List Token → Except ParseError α × List Token}
    (h : Settled ts id ans behind)
    (heq : ∀ i rest, tokens i = t :: rest → rest.head? = ts.head? → again i = behind rest) :
    Settled (t :: ts) tokens ans again := by
  obtain ⟨taken, rfl, hbehind⟩ := h
  refine ⟨t :: taken, rfl, fun i rest hi hrest ↦ ?_⟩
  have hhead : (taken ++ rest).head? = (taken ++ ans.2).head? := by
    rw [List.head?_append, hrest, List.head?_append]
  rw [heq i _ hi hhead]
  exact hbehind _ rest rfl hrest

/-- Certain tokens are taken, and no more. -/
theorem of_taken {r : Except ParseError α} (taken : List Token)
    (h : ∀ i rest, tokens i = taken ++ rest → again i = (r, rest)) :
    Settled (taken ++ ts) tokens (r, ts) again :=
  ⟨taken, rfl, fun i rest hi _ ↦ h i rest hi⟩

theorem andThen {f : α → (rest : List Token) → rest.length < n → Outcome β k}
    {f' : (i : ι) → α → (rest : List Token) → rest.length < m i → Outcome β (l i)}
    (h : Settled ts tokens o.answer fun i ↦ (o' i).answer)
    (hf : ∀ a rest hlt,
      Settled rest (fun j : Σ i, {rest : List Token // rest.length < m i} ↦ j.2.1)
        (f a rest hlt).answer fun j ↦ (f' j.1 a j.2.1 j.2.2).answer) :
    Settled ts tokens (o.andThen f).answer fun i ↦ ((o' i).andThen (f' i)).answer := by
  obtain ⟨taken, rfl, hagain⟩ := h
  cases o with
  | error cause rest =>
    exact ⟨taken, rfl, fun i rest' hi hrest ↦
      Outcome.answer_andThen_of_error (hagain i rest' hi hrest)⟩
  | ok a rest hlt =>
    obtain ⟨taken', hsplit, hbehind⟩ := hf a rest hlt
    refine ⟨taken ++ taken', ?_, fun i rest' hi hhead ↦ ?_⟩
    · rw [List.append_assoc]
      exact congrArg _ hsplit
    · -- the second part of the other run starts from what the first part leaves
      have hfirst := hagain i (taken' ++ rest') (by rw [hi, List.append_assoc]) <| by
        rw [List.head?_append, hhead, ← List.head?_append]
        exact congrArg _ hsplit.symm
      obtain ⟨hlt', heq⟩ := Outcome.answer_andThen_of_ok hfirst
      exact heq.trans (hbehind ⟨i, _, hlt'⟩ rest' rfl hhead)

/-- What follows is settled, from the tokens that are left. -/
theorem follow {next : Except ParseError α × List Token → Except ParseError β × List Token}
    (h : Settled ts tokens ans again)
    (hnext : Settled ans.2 id (next ans) fun rest ↦ next (ans.1, rest)) :
    Settled ts tokens (next ans) fun i ↦ next (again i) := by
  obtain ⟨taken, hts, hagain⟩ := h
  obtain ⟨taken', hrest, hbehind⟩ := hnext
  refine ⟨taken ++ taken', by rw [List.append_assoc, ← hrest, hts], fun i rest hi hhead ↦ ?_⟩
  have hfirst := hagain i (taken' ++ rest) (by rw [hi, List.append_assoc]) <| by
    rw [hrest, List.head?_append, hhead, List.head?_append]
  exact (congrArg next hfirst).trans (hbehind _ rest rfl hhead)

/-- A function is applied to the values. -/
theorem image (f : α → β) (h : Settled ts tokens ans again) :
    Settled ts tokens (ans.1.map f, ans.2) fun i ↦ ((again i).1.map f, (again i).2) := by
  obtain ⟨taken, hts, hagain⟩ := h
  exact ⟨taken, hts, fun i rest hi hrest ↦
    congrArg (fun ans ↦ (ans.1.map f, ans.2)) (hagain i rest hi hrest)⟩

theorem map {f : α → β} (h : Settled ts tokens o.answer fun i ↦ (o' i).answer) :
    Settled ts tokens (o.map f).answer fun i ↦ ((o' i).map f).answer := by
  simpa only [Outcome.answer_map] using h.image f

theorem widen {h : n ≤ k} {h' : ∀ i, m i ≤ l i}
    (hs : Settled ts tokens o.answer fun i ↦ (o' i).answer) :
    Settled ts tokens (o.widen h).answer fun i ↦ ((o' i).widen (h' i)).answer := by
  simpa only [Outcome.answer_widen] using hs

end Settled

namespace LooksAhead

variable {α ι : Type} {bound bound' : List Token → Nat}
  {p : (ts : List Token) → Outcome α (bound ts)} {q : (ts : List Token) → Outcome α (bound' ts)}
  {ts : List Token} {tokens : ι → List Token}

theorem settled (h : LooksAhead p ts) :
    Settled ts tokens (p ts).answer fun i ↦ (p (tokens i)).answer := by
  obtain ⟨taken, hts, hagain⟩ := h
  exact ⟨taken, hts, fun i ↦ hagain (tokens i)⟩

/-- A parser may choose by the first token. -/
theorem of_head (h : LooksAhead q ts)
    (heq : ∀ ts', ts'.head? = ts.head? → (p ts').answer = (q ts').answer) : LooksAhead p ts := by
  rw [LooksAhead, heq ts rfl]
  exact h.congr_head heq

theorem map {β : Type} {f : α → β} (h : LooksAhead p ts) :
    LooksAhead (fun ts ↦ (p ts).map f) ts :=
  h.settled.map

/-- A parser may fail at the first token. -/
theorem of_error (cause : ParseError)
    (h : ∀ ts', ts'.head? = ts.head? → (p ts').answer = (.error cause, ts')) : LooksAhead p ts := by
  rw [LooksAhead, h ts rfl]
  exact .of_head h

/-- A parser may end at the first token. -/
theorem of_one {t : Token} {r : Except ParseError α}
    (h : ∀ rest, (p (t :: rest)).answer = (r, rest)) : LooksAhead p (t :: ts) := by
  rw [LooksAhead, h]
  exact .of_taken [t] fun ts' rest hts' ↦ by
    rw [show ts' = _ from hts', List.singleton_append, h]

/-- A parser may take the first token. -/
theorem of_cons {t : Token}
    (h : Settled ts id (p (t :: ts)).answer fun rest ↦ (p (t :: rest)).answer) :
    LooksAhead p (t :: ts) :=
  h.cons fun ts' rest hts' _ ↦ by rw [show ts' = _ from hts']

end LooksAhead

variable {ts : List Token}

/-! ## Single tokens -/

theorem looksAhead_expect {f : Fixed} {cause : ParseError} : LooksAhead (expect f cause) ts := by
  by_cases hhead : ts.head? = some (.fixed f)
  · obtain ⟨rest, rfl⟩ := List.head?_eq_some_iff.mp hhead
    exact .of_one fun rest ↦ by rw [expect, if_pos rfl, Outcome.answer_ok]
  · refine .of_error cause fun ts' h ↦ ?_
    unfold expect
    split
    · next g rest => rw [if_neg (by simpa [← h] using hhead), Outcome.answer_error]
    · rfl

theorem looksAhead_expectName {cause : ParseError} : LooksAhead (expectName cause) ts := by
  by_cases hhead : ∃ ident, ts.head? = some (.name ident)
  · obtain ⟨ident, hhead⟩ := hhead
    obtain ⟨rest, rfl⟩ := List.head?_eq_some_iff.mp hhead
    exact .of_one fun rest ↦ rfl
  · refine .of_error cause fun ts' h ↦ ?_
    unfold expectName
    split
    · next ident rest => exact absurd ⟨ident, h.symm⟩ hhead
    · rfl

/-- Behind a construct, a semicolon may be taken. -/
theorem settled_skipSemi {α ι : Type} {n : Nat} {m : ι → Nat} {a : α} {tokens : ι → List Token}
    {h : (skipSemi ts).length < n} {h' : ∀ i, (skipSemi (tokens i)).length < m i} :
    Settled ts tokens (.ok a (skipSemi ts) h : Outcome α n).answer
      fun i ↦ (.ok a (skipSemi (tokens i)) (h' i) : Outcome α (m i)).answer := by
  simp only [Outcome.answer_ok]
  by_cases hhead : ts.head? = some (.mark .semi)
  · obtain ⟨rest, rfl⟩ := List.head?_eq_some_iff.mp hhead
    exact .of_taken [_] fun i rest' hi ↦ by rw [hi, List.singleton_append, skipSemi]
  · have hskip (ts' : List Token) (h : ts'.head? = ts.head?) : skipSemi ts' = ts' := by
      unfold skipSemi
      split
      · exact absurd h.symm hhead
      · rfl
    rw [hskip ts rfl]
    exact .of_head fun i hi ↦ by rw [hskip _ hi]

/-! ## Expressions -/

theorem looksAhead_literal : LooksAhead literal ts := by
  cases ts with
  | nil => exact .of_error _ fun ts' h ↦ by rw [List.head?_eq_none_iff.mp h]; rfl
  | cons t ts =>
    cases t with
    | number | text | name | char | fixed => exact .of_one fun rest ↦ rfl

theorem looksAhead_expr_of (hprimary : LooksAhead primary ts)
    (hoperators : ∀ lhs rest, rest.length < ts.length → LooksAhead (operators 0 lhs) rest) :
    LooksAhead expr ts := by
  refine .of_head ?_ fun ts' _ ↦ by rw [expr]
  exact hprimary.settled.andThen fun lhs rest hlt ↦ (hoperators lhs rest hlt).settled.widen

theorem looksAhead_operators_step {least : Nat} {lhs : Expr} {op : Operator} {rest : List Token}
    (hle : least ≤ op.precedence) (hprimary : LooksAhead primary rest)
    (hright : ∀ q (r : List Token), r.length < rest.length →
      LooksAhead (operators (op.precedence + 1) q) r)
    (hgo : ∀ r : List Token, r.length < rest.length → ∀ rhs (r' : List Token),
      r'.length < r.length + 1 → LooksAhead (operators least (.binary op lhs rhs)) r') :
    LooksAhead (operators least lhs) (.operator op :: rest) := by
  refine .of_cons ?_
  simp only [operators, if_pos hle]
  exact hprimary.settled.andThen fun operand r hr ↦ (hright operand r hr).settled.andThen
    fun rhs r' hr' ↦ (hgo r hr rhs r' hr').settled.widen

theorem looksAhead_operators_of_not {least : Nat} {lhs : Expr}
    (h : ∀ op, ts.head? = some (.operator op) → ¬least ≤ op.precedence) :
    LooksAhead (operators least lhs) ts := by
  have hstop (ts' : List Token) (hhead : ts'.head? = ts.head?) :
      (operators least lhs ts').answer = (.ok lhs, ts') := by
    rw [operators.eq_def]
    split
    · next op rest => rw [if_neg (h op hhead.symm), Outcome.answer_ok]
    · rfl
  rw [LooksAhead, hstop ts rfl]
  exact .of_head hstop

theorem looksAhead_parenthesised_of
    (hexpr : ∀ rest : List Token, rest.length < ts.length → LooksAhead expr rest) :
    LooksAhead parenthesised ts := by
  refine .of_head ?_ fun ts' _ ↦ by rw [parenthesised]
  exact looksAhead_expect.settled.andThen fun _ rest hlt ↦ (hexpr rest hlt).settled.andThen
    fun inner _ _ ↦ looksAhead_expect.settled.andThen fun _ _ _ ↦ .of_head fun _ _ ↦ rfl

theorem looksAhead_arguments_of (hexpr : LooksAhead expr ts)
    (hothers : ∀ rest : List Token, (Token.mark .comma :: rest).length < ts.length →
      LooksAhead arguments rest) : LooksAhead arguments ts := by
  refine .of_head ?_ fun ts' _ ↦ by rw [arguments]
  refine hexpr.settled.andThen fun arg rest hlt ↦ ?_
  split
  · refine .of_taken [_] ?_
    rintro ⟨_, _, _⟩ _ h
    cases h
    rfl
  · next hlt =>
    rw [Outcome.answer_widen]
    refine (hothers _ hlt).settled.map.cons ?_
    rintro ⟨_, _, _⟩ _ h _
    cases h
    exact Outcome.answer_widen
  · next hclose hcomma =>
    refine .of_head ?_
    rintro ⟨_, rest', _⟩ h
    change rest'.head? = rest.head? at h
    dsimp only
    split
    · obtain ⟨r, rfl⟩ := List.head?_eq_some_iff.mp h.symm
      exact (hclose r hlt rfl .rfl).elim
    · obtain ⟨r, rfl⟩ := List.head?_eq_some_iff.mp h.symm
      exact (hcomma r hlt rfl .rfl).elim
    · rfl

theorem looksAhead_nameOrCall_of
    (hargs : ∀ rest : List Token, (Token.mark .openParen :: rest).length < ts.length →
      LooksAhead arguments rest) : LooksAhead nameOrCall ts := by
  refine .of_head ?_ fun ts' _ ↦ by rw [nameOrCall]
  refine looksAhead_expectName.settled.andThen fun ident rest hlt ↦ ?_
  split
  · refine .of_taken [_, _] ?_
    rintro ⟨_, _, _⟩ _ h
    cases h
    rfl
  · next rest hlt hclose =>
    rw [Outcome.answer_widen]
    refine (hargs _ hlt).settled.map.cons ?_
    rintro ⟨_, ts', _⟩ rest' h hhead
    obtain rfl : ts' = _ := h
    dsimp only
    split
    · next heq _ =>
      obtain rfl := (List.cons.inj heq).2
      obtain ⟨r', rfl⟩ := List.head?_eq_some_iff.mp hhead.symm
      exact (hclose r' hlt .rfl rfl).elim
    · next heq _ =>
      obtain rfl := (List.cons.inj heq).2
      exact Outcome.answer_widen
    · next hopen => exact (hopen rest' _ rfl .rfl).elim
  · next hopen =>
    refine .of_head ?_
    rintro ⟨_, rest', _⟩ h
    change rest'.head? = rest.head? at h
    dsimp only
    split
    · obtain ⟨r, rfl⟩ := List.head?_eq_some_iff.mp h.symm
      exact (hopen r hlt rfl .rfl).elim
    · obtain ⟨r, rfl⟩ := List.head?_eq_some_iff.mp h.symm
      exact (hopen r hlt rfl .rfl).elim
    · rfl

theorem looksAhead_primary_of
    (hname : (∃ ident, ts.head? = some (.name ident)) → LooksAhead nameOrCall ts)
    (hparen : ts.head? = some (.mark .openParen) → LooksAhead parenthesised ts) :
    LooksAhead primary ts := by
  refine .of_head ?_ fun ts' h ↦ by rw [primary, h]
  split
  · exact looksAhead_literal
  · exact looksAhead_literal
  · next ident hhead => exact hname ⟨ident, hhead⟩
  · next hhead => exact hparen hhead
  · exact .of_error _ fun _ _ ↦ rfl

theorem looksAhead_expr (ts : List Token) : LooksAhead expr ts := by
  refine (expr.mutual_induct (LooksAhead expr) (fun least lhs ↦ LooksAhead (operators least lhs))
    (LooksAhead primary)
    (fun ts ↦ ts.head? = some (.mark .openParen) → LooksAhead parenthesised ts)
    (fun ts ↦ (∃ ident, ts.head? = some (.name ident)) → LooksAhead nameOrCall ts)
    (LooksAhead arguments)
    (fun _ ↦ looksAhead_expr_of) (fun _ _ _ _ ↦ looksAhead_operators_step)
    ?tooLoose ?noOperator ?number ?text ?name ?openParen ?other
    (fun _ h _ ↦ looksAhead_parenthesised_of h) (fun _ h _ ↦ looksAhead_nameOrCall_of h)
    fun _ ↦ looksAhead_arguments_of).1 ts
  case tooLoose =>
    intro least lhs op rest hloose
    exact looksAhead_operators_of_not fun _ hop ↦ by
      obtain rfl := Fixed.operator.inj (Token.fixed.inj (Option.some.inj hop))
      exact hloose
  case noOperator =>
    intro least lhs ts hno
    refine looksAhead_operators_of_not fun op hop ↦ ?_
    obtain ⟨rest, rfl⟩ := List.head?_eq_some_iff.mp hop
    exact (hno op rest rfl).elim
  case number => exact fun ts x hhead ↦ looksAhead_primary_of (by simp [hhead]) (by simp [hhead])
  case text => exact fun ts s hhead ↦ looksAhead_primary_of (by simp [hhead]) (by simp [hhead])
  case name => exact fun ts _ hhead ih ↦ looksAhead_primary_of ih (by simp [hhead])
  case openParen => exact fun ts hhead ih ↦ looksAhead_primary_of (by simp [hhead]) ih
  case other =>
    exact fun ts _ _ hname hparen ↦
      looksAhead_primary_of (Exists.elim · fun ident hhead ↦ (hname ident hhead).elim)
        fun hhead ↦ (hparen hhead).elim

/-! ## Statements -/

theorem looksAhead_assignment : LooksAhead assignment ts := by
  cases ts with
  | nil => exact .of_error _ fun ts' h ↦ by rw [List.head?_eq_none_iff.mp h]; rfl
  | cons t ts =>
    -- the first token is taken unseen
    refine .of_cons ?_
    simp only [assignment, List.tail_cons]
    exact looksAhead_expectName.settled.andThen fun _ _ _ ↦
      looksAhead_expect.settled.andThen fun _ rest _ ↦ (looksAhead_expr rest).settled.map.widen

theorem looksAhead_returned : LooksAhead returned ts := by
  refine .of_head ?_ fun ts' _ ↦ by rw [returned]
  exact looksAhead_expect.settled.andThen fun _ rest _ ↦
    (looksAhead_expr rest).settled.map.widen

theorem looksAhead_simpleStmt : LooksAhead simpleStmt ts := by
  refine .of_head ?_ fun ts' h ↦ by rw [simpleStmt, h]
  split
  · exact looksAhead_assignment.map
  · exact looksAhead_assignment.map
  · exact looksAhead_returned
  · exact (looksAhead_expr ts).map

theorem looksAhead_stmt_of (hif : ts.head? = some (.keyword .ifKw) → LooksAhead ifStmt ts)
    (hwhile : ts.head? = some (.keyword .whileKw) → LooksAhead whileStmt ts) :
    LooksAhead stmt ts := by
  refine .of_head ?_ fun ts' h ↦ by rw [stmt, h]
  split
  · next hhead => exact (hif hhead).settled.andThen fun _ _ _ ↦ settled_skipSemi
  · next hhead => exact (hwhile hhead).settled.andThen fun _ _ _ ↦ settled_skipSemi
  · exact looksAhead_simpleStmt.settled.andThen fun _ _ _ ↦ looksAhead_expect.settled.map.widen

theorem looksAhead_whileStmt_of
    (hblock : ∀ r₁ : List Token, r₁.length < ts.length → ∀ r₂ : List Token,
      r₂.length < r₁.length → LooksAhead block r₂) : LooksAhead whileStmt ts := by
  refine .of_head ?_ fun ts' _ ↦ by rw [whileStmt]
  exact looksAhead_expect.settled.andThen fun _ r₁ h₁ ↦ (looksAhead_expr r₁).settled.andThen
    fun _ r₂ h₂ ↦ (hblock r₁ h₁ r₂ h₂).settled.map.widen

theorem looksAhead_ifStmt_of
    (hblock : ∀ r₁ : List Token, r₁.length < ts.length → ∀ r₂ : List Token,
      r₂.length < r₁.length → LooksAhead block r₂)
    (hotherwise : ∀ r₁ : List Token, r₁.length < ts.length → ∀ r₂ : List Token,
      r₂.length < r₁.length → ∀ r₃ : List Token, (Token.keyword .elseKw :: r₃).length < r₂.length →
      LooksAhead block r₃) : LooksAhead ifStmt ts := by
  refine .of_head ?_ fun ts' _ ↦ by rw [ifStmt]
  refine looksAhead_expect.settled.andThen fun _ r₁ h₁ ↦ (looksAhead_expr r₁).settled.andThen
    fun _ r₂ h₂ ↦ (hblock r₁ h₁ r₂ h₂).settled.andThen fun _ r₃ h₃ ↦ ?_
  split
  · next h₃ =>
    rw [Outcome.answer_widen]
    refine (hotherwise r₁ h₁ r₂ h₂ _ h₃).settled.map.cons ?_
    rintro ⟨_, _, _⟩ _ h _
    cases h
    exact Outcome.answer_widen
  · next helse =>
    refine .of_head ?_
    rintro ⟨_, rest', _⟩ h
    change rest'.head? = r₃.head? at h
    dsimp only
    split
    · obtain ⟨r, rfl⟩ := List.head?_eq_some_iff.mp h.symm
      exact (helse r h₃ rfl .rfl).elim
    · rfl

theorem looksAhead_block_of
    (hstmts : ∀ rest : List Token, rest.length < ts.length → LooksAhead stmts rest) :
    LooksAhead block ts := by
  refine .of_head ?_ fun ts' _ ↦ by rw [block]
  exact looksAhead_expect.settled.andThen fun _ rest hlt ↦ (hstmts rest hlt).settled.widen

theorem looksAhead_stmts_of (hstmt : LooksAhead stmt ts)
    (hothers : ∀ rest : List Token, rest.length < ts.length → LooksAhead stmts rest) :
    LooksAhead stmts ts := by
  refine .of_head ?_ fun ts' _ ↦ by rw [stmts]
  refine hstmt.settled.andThen fun s rest hlt ↦ ?_
  split
  · refine .of_taken [_] ?_
    rintro ⟨_, _, _⟩ _ h
    cases h
    rfl
  · next hclose =>
    rw [Outcome.answer_widen]
    refine (hothers _ hlt).settled.map.congr_head ?_
    rintro ⟨_, rest', _⟩ h
    change rest'.head? = rest.head? at h
    dsimp only
    split
    · obtain ⟨r, rfl⟩ := List.head?_eq_some_iff.mp h.symm
      exact (hclose r hlt rfl .rfl).elim
    · exact Outcome.answer_widen

theorem looksAhead_stmt_and_block (ts : List Token) :
    LooksAhead stmt ts ∧ LooksAhead block ts := by
  have h := stmt.mutual_induct (LooksAhead stmt)
    (fun ts ↦ ts.head? = some (.keyword .whileKw) → LooksAhead whileStmt ts)
    (LooksAhead block) (LooksAhead stmts)
    (fun ts ↦ ts.head? = some (.keyword .ifKw) → LooksAhead ifStmt ts)
    (fun _ hhead ih ↦ looksAhead_stmt_of ih (by simp [hhead]))
    (fun _ hhead ih ↦ looksAhead_stmt_of (by simp [hhead]) ih)
    (fun _ hif hwhile ↦ looksAhead_stmt_of (fun h ↦ (hif h).elim) fun h ↦ (hwhile h).elim)
    (fun _ h _ ↦ looksAhead_whileStmt_of h) (fun _ ↦ looksAhead_block_of)
    (fun _ ↦ looksAhead_stmts_of) fun _ h h' _ ↦ looksAhead_ifStmt_of h h'
  exact ⟨h.1 ts, h.2.2.1 ts⟩

/-! ## Declarations -/

theorem looksAhead_param : LooksAhead param ts := by
  by_cases hdouble : ts.head? = some (.ty .double)
  · obtain ⟨rest, rfl⟩ := List.head?_eq_some_iff.mp hdouble
    refine .of_cons ?_
    simp only [param]
    exact looksAhead_expectName.settled.map.widen
  · by_cases hstring : ts.head? = some (.ty .string)
    · obtain ⟨rest, rfl⟩ := List.head?_eq_some_iff.mp hstring
      refine .of_cons ?_
      simp only [param]
      exact looksAhead_expectName.settled.map.widen
    · refine .of_error .expectedParamType fun ts' h ↦ ?_
      unfold param
      split
      · exact absurd h.symm hdouble
      · exact absurd h.symm hstring
      · rfl

theorem looksAhead_params (ts : List Token) : LooksAhead params ts := by
  induction ts using params.induct with
  | case1 ts ih =>
    refine .of_head ?_ fun ts' _ ↦ by rw [params]
    refine looksAhead_param.settled.andThen fun p rest hlt ↦ ?_
    split
    · refine .of_taken [_] ?_
      rintro ⟨_, _, _⟩ _ h
      cases h
      rfl
    · next hlt =>
      rw [Outcome.answer_widen]
      refine (ih _ hlt).settled.map.cons ?_
      rintro ⟨_, _, _⟩ _ h _
      cases h
      exact Outcome.answer_widen
    · next hclose hcomma =>
      refine .of_head ?_
      rintro ⟨_, rest', _⟩ h
      change rest'.head? = rest.head? at h
      dsimp only
      split
      · obtain ⟨r, rfl⟩ := List.head?_eq_some_iff.mp h.symm
        exact (hclose r hlt rfl .rfl).elim
      · obtain ⟨r, rfl⟩ := List.head?_eq_some_iff.mp h.symm
        exact (hcomma r hlt rfl .rfl).elim
      · rfl

theorem looksAhead_returnType : LooksAhead returnType ts := by
  by_cases hty : ∃ t, ts.head? = some (.ty t)
  · obtain ⟨t, hty⟩ := hty
    obtain ⟨rest, rfl⟩ := List.head?_eq_some_iff.mp hty
    exact .of_one fun rest ↦ rfl
  · refine .of_error .expectedReturnType fun ts' h ↦ ?_
    unfold returnType
    split
    · next t rest => exact absurd ⟨t, h.symm⟩ hty
    · rfl

theorem looksAhead_prototype : LooksAhead prototype ts := by
  refine .of_head ?_ fun ts' _ ↦ by rw [prototype]
  refine looksAhead_returnType.settled.andThen fun _ _ _ ↦
    looksAhead_expectName.settled.andThen fun _ _ _ ↦
      looksAhead_expect.settled.andThen fun _ rest hlt ↦ ?_
  split
  · refine .of_taken [_] ?_
    rintro ⟨_, _, _⟩ _ h
    cases h
    rfl
  · next hclose =>
    rw [Outcome.answer_widen]
    refine (looksAhead_params rest).settled.map.congr_head ?_
    rintro ⟨_, rest', _⟩ h
    change rest'.head? = rest.head? at h
    dsimp only
    split
    · obtain ⟨r, rfl⟩ := List.head?_eq_some_iff.mp h.symm
      exact (hclose r hlt rfl .rfl).elim
    · exact Outcome.answer_widen

theorem looksAhead_functionDecl : LooksAhead functionDecl ts := by
  refine .of_head ?_ fun ts' _ ↦ by rw [functionDecl]
  exact looksAhead_expect.settled.andThen fun _ _ _ ↦ looksAhead_prototype.settled.andThen
    fun _ rest _ ↦ (looksAhead_stmt_and_block rest).2.settled.map.widen

theorem looksAhead_externalDecl : LooksAhead externalDecl ts := by
  refine .of_head ?_ fun ts' _ ↦ by rw [externalDecl]
  exact looksAhead_expect.settled.andThen fun _ _ _ ↦ looksAhead_prototype.settled.andThen
    fun _ _ _ ↦ looksAhead_expect.settled.map.widen

theorem looksAhead_constantDecl : LooksAhead constantDecl ts := by
  refine .of_head ?_ fun ts' _ ↦ by rw [constantDecl]
  exact looksAhead_assignment.settled.andThen fun _ _ _ ↦ settled_skipSemi

/-- A declaration is read by a parser that its first token chooses. -/
theorem exists_looksAhead_declaration (t : Token) (ts : List Token) :
    ∃ p : (ts : List Token) → Outcome Decl ts.length,
      LooksAhead p (t :: ts) ∧ ∀ rest, declaration t rest = p (t :: rest) := by
  unfold declaration
  split
  · exact ⟨functionDecl, looksAhead_functionDecl, fun _ ↦ rfl⟩
  · exact ⟨externalDecl, looksAhead_externalDecl, fun _ ↦ rfl⟩
  · exact ⟨constantDecl, looksAhead_constantDecl, fun _ ↦ rfl⟩
  · exact ⟨fun ts ↦ .error (.unknownTopLevel t) ts, .of_error _ fun _ _ ↦ rfl, fun _ ↦ rfl⟩

/-! ## Calls -/

theorem run_declaration_of_nil (h : skipSemis ts = []) :
    Call.declaration.run ts = (.ok (.declaration none), []) := by
  rw [Call.run, nextDeclaration?_of_nil h]

theorem run_declaration_of_cons {t : Token} {rest : List Token} (h : skipSemis ts = t :: rest) :
    Call.declaration.run ts = ((declaration t rest).answer.1.map (.declaration ∘ some),
      (declaration t rest).answer.2) := by
  obtain ⟨hle, hnext⟩ := nextDeclaration?_of_cons h
  rw [Call.run, hnext, ← Outcome.answer_widen]
  rfl

theorem settled_run_declaration (ts : List Token) :
    Settled ts id (Call.declaration.run ts) Call.declaration.run := by
  fun_induction skipSemis ts with
  | case1 rest ih =>
    have hsemi (rest : List Token) :
        Call.declaration.run (.mark .semi :: rest) = Call.declaration.run rest := by
      cases h : skipSemis rest with
      | nil => rw [run_declaration_of_nil h, run_declaration_of_nil (by rw [skipSemis, h])]
      | cons => rw [run_declaration_of_cons h, run_declaration_of_cons (by rw [skipSemis, h])]
    rw [hsemi]
    exact ih.cons fun ts' rest' h _ ↦ by rw [show ts' = _ from h, hsemi]
  | case2 ts hne =>
    cases ts with
    | nil =>
      refine .of_head fun ts' h ↦ ?_
      obtain rfl := List.head?_eq_none_iff.mp h
      exact run_declaration_of_nil rfl
    | cons t ts =>
      have hskip (rest : List Token) : skipSemis (t :: rest) = t :: rest := by
        rw [skipSemis.eq_def]
        split
        · next heq => exact (hne ts (by rw [(List.cons.inj heq).1])).elim
        · rfl
      obtain ⟨p, hp, heq⟩ := exists_looksAhead_declaration t ts
      rw [run_declaration_of_cons (hskip ts), heq ts]
      refine (hp.image (Tree.declaration ∘ some)).congr_head fun ts' h ↦ ?_
      obtain ⟨rest, rfl⟩ := List.head?_eq_some_iff.mp h
      rw [run_declaration_of_cons (hskip rest), heq rest]

/-- How parsing all declarations goes on behind the answer to a request for the next one. -/
def programBehind :
    Except ParseError Tree × List Token → Except ParseError (List Decl) × List Token
  | (.ok (.declaration (some d)), rest) =>
    ((program rest).answer.1.map (d :: ·), (program rest).answer.2)
  | (.ok _, _) => (.ok [], [])
  | (.error cause, rest) => (.error cause, rest)

theorem answer_program (ts : List Token) :
    (program ts).answer = programBehind (Call.declaration.run ts) := by
  rw [program, Call.run]
  cases nextDeclaration? ts with
  | none => rfl
  | some o =>
    cases o with
    | error => rfl
    | ok d rest hlt =>
      rw [Outcome.answer_widen, Outcome.answer_map]
      rfl

theorem settled_program (ts : List Token) :
    Settled ts id (program ts).answer fun ts' ↦ (program ts').answer := by
  have hnext := settled_run_declaration ts
  induction ts using program.induct with
  | case1 ts hnone =>
    simp only [answer_program]
    refine hnext.follow ?_
    rw [Call.run, hnone]
    exact .of_head fun rest h ↦ by rw [show rest = [] from List.head?_eq_none_iff.mp h]; rfl
  | case2 ts cause rest herror =>
    simp only [answer_program]
    refine hnext.follow ?_
    rw [Call.run, herror]
    exact .of_head fun _ _ ↦ rfl
  | case3 ts d rest hlt hok ih =>
    simp only [answer_program]
    refine hnext.follow ?_
    rw [Call.run, hok]
    exact (ih (settled_run_declaration rest)).image (d :: ·)

theorem settled_run (call : Call) (ts : List Token) : Settled ts id (call.run ts) call.run := by
  cases call with
  | expr => exact (looksAhead_expr ts).image Tree.expr
  | stmt => exact (looksAhead_stmt_and_block ts).1.image Tree.stmt
  | block => exact (looksAhead_stmt_and_block ts).2.image Tree.block
  | prototype => exact looksAhead_prototype.image Tree.prototype
  | declaration => exact settled_run_declaration ts
  | program => exact (settled_program ts).image Tree.program

/-- The number of tokens that a call takes. -/
def Call.taken (call : Call) (ts : List Token) : Nat := ts.length - (call.run ts).2.length

/-- One token of lookahead: a call that takes `k` tokens, whether it succeeds or not, answers the
same from all tokens that share the first `k + 1`, and takes `k` of them. -/
theorem Call.run_eq_of_take_eq {call : Call} {ts ts' : List Token}
    (h : ts'.take (call.taken ts + 1) = ts.take (call.taken ts + 1)) :
    call.taken ts' = call.taken ts ∧
      call.run ts = ((call.run ts).1, ts.drop (call.taken ts)) ∧
      call.run ts' = ((call.run ts).1, ts'.drop (call.taken ts)) := by
  obtain ⟨taken, hts, hagain⟩ := settled_run call ts
  have hk : call.taken ts = taken.length := by
    have := congrArg List.length hts
    rw [List.length_append] at this
    rw [Call.taken]
    omega
  rw [hk] at h ⊢
  have hdrop : ts.drop taken.length = (call.run ts).2 :=
    (congrArg (List.drop taken.length) hts).trans List.drop_left
  have htake : ts'.take taken.length = taken := by
    have h := congrArg (List.take taken.length) h
    rw [List.take_take, List.take_take, Nat.min_eq_left (Nat.le_succ _)] at h
    exact h.trans ((congrArg (List.take taken.length) hts).trans List.take_left)
  have htaken : ts' = taken ++ ts'.drop taken.length := by
    have h := List.take_append_drop taken.length ts'
    rw [htake] at h
    exact h.symm
  have hhead : (ts'.drop taken.length).head? = (call.run ts).2.head? := by
    have h := congrArg (fun us : List Token ↦ us[taken.length]?) h
    rw [← hdrop, List.head?_drop, List.head?_drop]
    simpa only [List.getElem?_take_of_lt (Nat.lt_succ_self _)] using h
  have hrun := hagain ts' _ htaken hhead
  refine ⟨?_, by rw [hdrop], hrun⟩
  rw [Call.taken, hrun, List.length_drop]
  have := congrArg List.length htaken
  rw [List.length_append] at this
  omega

/-- A conditional ends at a name, even if an alternative follows behind it, and a block fails at a
semicolon in the place of an operand, whatever follows. -/
theorem Call.run_eq_conditional_and_block :
    let ts (rest : String) := Token.ofSource ("if x \x7b y; \x7d z" ++ rest)
    let us (rest : String) := Token.ofSource ("\x7b x + ;" ++ rest)
    (stmt.taken (ts "") = 6 ∧ (stmt.run (ts "")).1.isOk = true ∧
      stmt.run (ts " else \x7b") = ((stmt.run (ts "")).1, (ts " else \x7b").drop 6)) ∧
    (block.taken (us "") = 3 ∧ (block.run (us "")).1.isOk = false ∧
      block.run (us " y; \x7d") = ((block.run (us "")).1, (us " y; \x7d").drop 3)) := by
  intro ts us
  have hts : stmt.taken (ts "") = 6 := by decide +kernel
  have hus : block.taken (us "") = 3 := by decide +kernel
  refine ⟨⟨hts, by decide +kernel, ?conditional⟩, hus, by decide +kernel, ?block⟩
  case conditional =>
    have hshared : (ts " else \x7b").take (stmt.taken (ts "") + 1) =
        (ts "").take (stmt.taken (ts "") + 1) := by decide +kernel
    have hrun := (run_eq_of_take_eq hshared).2.2
    rwa [hts] at hrun
  case block =>
    have hshared : (us " y; \x7d").take (block.taken (us "") + 1) =
        (us "").take (block.taken (us "") + 1) := by decide +kernel
    have hrun := (run_eq_of_take_eq hshared).2.2
    rwa [hus] at hrun

end Parse

end BlockCompiler
