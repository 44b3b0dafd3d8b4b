import BlockCompiler.Program

/-!
# Equality of trees

Trees nest lists of trees, and whether two of them are equal is decided by recursion over both. With
this, what the parser makes of a text can be computed and compared.
-/

namespace BlockCompiler

/-! ## Expressions -/

mutual

/-- The expressions are equal. -/
def Expr.same : Expr → Expr → Bool
  | .number x, .number y => x = y
  | .text s, .text t => s = t
  | .name s, .name t => s = t
  | .call f es, .call g es' => f = g && Expr.sameAll es es'
  | .binary op l r, .binary op' l' r' => op = op' && (Expr.same l l' && Expr.same r r')
  | _, _ => false
termination_by structural a => a

def Expr.sameAll : List Expr → List Expr → Bool
  | [], [] => true
  | a :: as, b :: bs => Expr.same a b && Expr.sameAll as bs
  | _, _ => false
termination_by structural as => as

end

mutual

theorem Expr.same_iff : ∀ a b, Expr.same a b = true ↔ a = b
  | .number x, b => by cases b <;> simp [Expr.same]
  | .text s, b => by cases b <;> simp [Expr.same]
  | .name s, b => by cases b <;> simp [Expr.same]
  | .call f es, b => by cases b <;> simp [Expr.same, Expr.sameAll_iff es]
  | .binary op l r, b => by cases b <;> simp [Expr.same, Expr.same_iff l, Expr.same_iff r]
termination_by structural a => a

theorem Expr.sameAll_iff : ∀ as bs, Expr.sameAll as bs = true ↔ as = bs
  | [], bs => by cases bs <;> simp [Expr.sameAll]
  | a :: as, bs => by cases bs <;> simp [Expr.sameAll, Expr.same_iff a, Expr.sameAll_iff as]
termination_by structural as => as

end

instance : DecidableEq Expr := fun a b ↦ decidable_of_iff _ (Expr.same_iff a b)

/-! ## Statements -/

mutual

def Stmt.same : Stmt → Stmt → Bool
  | .assign x e, .assign y e' => x = y && e = e'
  | .ret e, .ret e' => e = e'
  | .ifThen e ss, .ifThen e' ss' => e = e' && Stmt.sameAll ss ss'
  | .ifElse e ss ts, .ifElse e' ss' ts' => e = e' && (Stmt.sameAll ss ss' && Stmt.sameAll ts ts')
  | .loop e ss, .loop e' ss' => e = e' && Stmt.sameAll ss ss'
  | .eval e, .eval e' => e = e'
  | _, _ => false
termination_by structural a => a

def Stmt.sameAll : List Stmt → List Stmt → Bool
  | [], [] => true
  | a :: as, b :: bs => Stmt.same a b && Stmt.sameAll as bs
  | _, _ => false
termination_by structural as => as

end

mutual

theorem Stmt.same_iff : ∀ a b, Stmt.same a b = true ↔ a = b
  | .assign x e, b => by cases b <;> simp [Stmt.same]
  | .ret e, b => by cases b <;> simp [Stmt.same]
  | .ifThen e ss, b => by cases b <;> simp [Stmt.same, Stmt.sameAll_iff ss]
  | .ifElse e ss ts, b => by
    cases b <;> simp [Stmt.same, Stmt.sameAll_iff ss, Stmt.sameAll_iff ts]
  | .loop e ss, b => by cases b <;> simp [Stmt.same, Stmt.sameAll_iff ss]
  | .eval e, b => by cases b <;> simp [Stmt.same]
termination_by structural a => a

theorem Stmt.sameAll_iff : ∀ as bs, Stmt.sameAll as bs = true ↔ as = bs
  | [], bs => by cases bs <;> simp [Stmt.sameAll]
  | a :: as, bs => by cases bs <;> simp [Stmt.sameAll, Stmt.same_iff a, Stmt.sameAll_iff as]
termination_by structural as => as

end

instance : DecidableEq Stmt := fun a b ↦ decidable_of_iff _ (Stmt.same_iff a b)

deriving instance DecidableEq for Decl

end BlockCompiler
