import BlockCompiler.Proofs.Grammar.Completeness

/-!
# The tree of a chain

The tree that the binding strengths ask for as a function of the chain: the chain is split at its
last operator that binds least, and both parts are read the same way (`Grammar.tree`). It is the one
tree by precedence (`Grammar.byPrecedence_iff`).

The parser yields it in front of every token that neither is an operator nor makes a call of a name
at the end of the chain, and leaves that token (`Parse.yields_tree`). This is more than programs ask
for, where no parenthesis ever opens behind an expression.
-/

namespace BlockCompiler

namespace Grammar

/-! ## The root -/

/-- What stands before the last operator that binds least, that operator with the operand behind it,
and what stands behind both; none if there is no operator. -/
def root? : Chain → Option (Chain × (Operator × Expr) × Chain)
  | [] => none
  | x :: c =>
    match root? c with
    | none => some ([], x, [])
    | some (c₁, y, c₂) =>
      if x.1.precedence < y.1.precedence then some ([], x, c) else some (x :: c₁, y, c₂)

theorem root?_eq_none_iff {c : Chain} : root? c = none ↔ c = [] := by
  cases c with
  | nil => simp [root?]
  | cons x c =>
    rw [root?]
    split
    · simp
    · split <;> simp

/-- The parts of the split are those of the chain. -/
theorem eq_append_of_root? {c c₁ c₂ : Chain} {x : Operator × Expr}
    (h : root? c = some (c₁, x, c₂)) : c = c₁ ++ x :: c₂ := by
  induction c generalizing c₁ with
  | nil => exact nomatch h
  | cons y c ih =>
    rw [root?] at h
    split at h
    · next hnone =>
      cases h
      rw [root?_eq_none_iff.mp hnone]
      rfl
    · next hsome =>
      split at h
      · cases h
        rfl
      · cases h
        rw [ih hsome]
        rfl

/-- The split is found at the last of the operators that bind least. -/
theorem root?_append {c₁ c₂ : Chain} {x : Operator × Expr}
    (noLooser : ∀ y ∈ c₁, x.1.precedence ≤ y.1.precedence)
    (tighter : ∀ y ∈ c₂, x.1.precedence < y.1.precedence) :
    root? (c₁ ++ x :: c₂) = some (c₁, x, c₂) := by
  induction c₁ with
  | nil =>
    rw [List.nil_append, root?]
    split
    · next hnone => rw [root?_eq_none_iff.mp hnone]
    · next hsome =>
      have hy := eq_append_of_root? hsome
      exact if_pos (tighter _ (hy ▸ List.mem_append_cons_self))
  | cons y c₁ ih =>
    obtain ⟨hy, noLooser⟩ := List.forall_mem_cons.mp noLooser
    rw [List.cons_append, root?, ih noLooser]
    exact if_neg (Nat.not_lt.mpr hy)

/-! ## The tree -/

/-- The tree of a first operand and a chain. Its root is the last of the operators that bind
least. -/
def tree (p : Expr) (c : Chain) : Expr :=
  match h : root? c with
  | none => p
  | some (c₁, (op, q), c₂) =>
    have := eq_append_of_root? h
    .binary op (tree p c₁) (tree q c₂)
termination_by c.length
decreasing_by all_goals grind

@[simp] theorem tree_nil (p : Expr) : tree p [] = p := by
  rw [tree]
  rfl

theorem tree_append {p q : Expr} {op : Operator} {c₁ c₂ : Chain}
    (noLooser : ∀ x ∈ c₁, op.precedence ≤ x.1.precedence)
    (tighter : ∀ x ∈ c₂, op.precedence < x.1.precedence) :
    tree p (c₁ ++ (op, q) :: c₂) = .binary op (tree p c₁) (tree q c₂) := by
  have hroot := root?_append (x := (op, q)) noLooser tighter
  rw [tree]
  split
  · next hnone => exact absurd (hroot.symm.trans hnone) nofun
  · next hsome =>
    cases hroot.symm.trans hsome
    rfl

/-- There is one tree by precedence. -/
theorem byPrecedence_iff {p e : Expr} {c : Chain} : ByPrecedence p c e ↔ tree p c = e := by
  have htree : ∀ e, ByPrecedence p c e → tree p c = e := fun e h ↦ by
    induction h with
    | operand => exact tree_nil _
    | node _ _ noLooser tighter ihLeft ihRight =>
      rw [tree_append noLooser tighter, ihLeft, ihRight]
  refine ⟨htree e, ?_⟩
  rintro rfl
  obtain ⟨e, h⟩ := exists_byPrecedence p c
  rwa [htree e h]

end Grammar

namespace Parse

open Grammar

/-! ## In front of other tokens -/

theorem EndsOperand.of_append {w u ts : List Token} (h : EndsOperand (w ++ u) ts) :
    EndsOperand u ts :=
  h.imp_right fun hne ident hlast ↦ hne ident (by rw [List.getLast?_append, hlast]; rfl)

theorem EndsOperand.before {u v rest : List Token} {c : Chain} (h : EndsOperand (u ++ v) rest)
    (hv : IsOperands ByPrecedence v c) : EndsOperand u (v ++ rest) := by
  cases hv with
  | nil => rwa [List.append_nil] at h
  | cons => exact .inl nofun

theorem readsBefore {v rest : List Token} {c : Chain} :
    IsOperands ByPrecedence v c → EndsOperand v rest → ReadsBefore rest v c
  | .nil, _ => .nil
  | @IsOperands.cons _ op u _ _ _ operand others, h => by
    have hu : EndsOperand (u ++ _) rest := h.of_append (w := [.operator op])
    exact .cons (yields_primary operand (hu.before others)) (readsBefore others hu.of_append)
termination_by structural h => h

/-- A chain is parsed to its tree: in front of a token that is no operator, and no parenthesis if
the chain ends in a name, the parser stops exactly there. -/
theorem yields_tree {u v rest : List Token} {p : Expr} {c : Chain}
    (first : IsPrimary ByPrecedence u p) (others : IsOperands ByPrecedence v c)
    (noOperator : ∀ op, rest.head? ≠ some (.operator op)) (noCall : EndsOperand (u ++ v) rest) :
    (expr (u ++ (v ++ rest))).Yields (tree p c) rest :=
  yields_expr_of_chain (yields_primary first (noCall.before others))
    (readsBefore others noCall.of_append) (byPrecedence_iff.mpr rfl) noOperator

/-- `a - b * f(x) < (c + d)` in front of a parenthesis: the product is an operand of the difference,
which is one of the comparison. -/
theorem yields_tree_parenthesis :
    (expr ([.name "a", .operator .sub, .name "b", .operator .mul, .name "f", .mark .openParen,
      .name "x", .mark .closeParen, .operator .less, .mark .openParen, .name "c", .operator .add,
      .name "d", .mark .closeParen] ++ [.mark .openParen])).Yields
      (.binary .less (.binary .sub (.name "a") (.binary .mul (.name "b") (.call "f" [.name "x"])))
        (.binary .add (.name "c") (.name "d"))) [.mark .openParen] := by
  have hcall : IsPrimary ByPrecedence [.name "f", .mark .openParen, .name "x", .mark .closeParen]
      (.call "f" [.name "x"]) :=
    .call (u := [.name "x"]) (.one (.intro .name .nil .operand))
  have hparen : IsPrimary ByPrecedence [.mark .openParen, .name "c", .operator .add, .name "d",
      .mark .closeParen] (.binary .add (.name "c") (.name "d")) :=
    .paren (u := [.name "c", .operator .add, .name "d"]) (.intro .name (.cons .name .nil)
      (byPrecedence_iff.mpr (by simp [tree, root?])))
  have htree : tree (.name "a") [(.sub, .name "b"), (.mul, .call "f" [.name "x"]),
      (.less, .binary .add (.name "c") (.name "d"))] =
        .binary .less
          (.binary .sub (.name "a") (.binary .mul (.name "b") (.call "f" [.name "x"])))
          (.binary .add (.name "c") (.name "d")) := by
    simp [tree, root?, Operator.precedence]
  exact htree ▸ yields_tree .name (.cons .name (.cons hcall (.cons hparen .nil))) (by simp)
    (.inr (by simp))

end Parse

end BlockCompiler
