import BlockCompiler.Program.Text
import BlockCompiler.Proofs.Grammar.Completeness
import BlockCompiler.Proofs.Lexing
import BlockCompiler.Proofs.Trees
import Mathlib.Control.Monad.Basic

/-!
# Written forms are read back

The written form of a program that was parsed is a source text of the same program. This is not so
for every tree: a tree may hold a name that is no word, a text with a quote in it, an empty block or
a type that cannot be written. A parsed tree has none of these, since its names and texts are
tokens of a source text.

A written form need not have the tokens that the tree was parsed from: it has parentheses around
every operation and `set` for every assignment in a body, and a semicolon that may be left out need
not stand where it stood. So both readings of the form are put together along the derivation of the
tree: it is read as tokens, and these are tokens of the tree (`ReadBack`).

## Numbers

A number is written with the shortest digits that read back to it. That reading and writing agree is
a property of floating-point arithmetic, which is taken here as a condition on the numbers of the
program. The condition also excludes numbers that are written with an exponent, as these are no
literals of the language.
-/

namespace BlockCompiler

open Grammar Token

/-! ## The numbers of a program -/

mutual

/-- The number literals of an expression. -/
def Expr.numbers : Expr → List Float
  | .number value => [value]
  | .text _ | .name _ => []
  | .call _ args => Expr.allNumbers args
  | .binary _ lhs rhs => lhs.numbers ++ rhs.numbers
termination_by structural e => e

def Expr.allNumbers : List Expr → List Float
  | [] => []
  | e :: es => e.numbers ++ Expr.allNumbers es
termination_by structural es => es

end

mutual

def Stmt.numbers : Stmt → List Float
  | .assign _ value | .ret value | .eval value => value.numbers
  | .ifThen cond body | .loop cond body => cond.numbers ++ Stmt.allNumbers body
  | .ifElse cond body otherwise =>
    cond.numbers ++ Stmt.allNumbers body ++ Stmt.allNumbers otherwise
termination_by structural s => s

def Stmt.allNumbers : List Stmt → List Float
  | [] => []
  | s :: ss => s.numbers ++ Stmt.allNumbers ss
termination_by structural ss => ss

end

def Decl.numbers : Decl → List Float
  | .function _ body => Stmt.allNumbers body
  | .external _ => []
  | .constant _ value => value.numbers

/-- The written form of the number is digits with a point between them, and it is read as the
number. -/
def Decimal.IsLiteral (x : Float) : Prop :=
  ∃ whole fraction : List Char, whole ≠ [] ∧ fraction ≠ [] ∧ (∀ c ∈ whole, c.isDigit = true) ∧
    (∀ c ∈ fraction, c.isDigit = true) ∧
    markedLayout.write x = String.ofList (whole ++ '.' :: fraction) ∧
    Token.ofSource (markedLayout.write x) = [.number x]

/-! ## Expressions -/

/-- A text that is read as tokens of the phrase. -/
def ReadBack {α : Type} (IsPhrase : List Token → α → Prop) (MayFollow : List Char → Prop) (a : α)
    (text : String) : Prop :=
  ∃ u, IsPhrase u a ∧ Reads MayFollow text.toList u

theorem Grammar.IsPrimary.isExpr {u : List Token} {e : Expr} (h : IsPrimary ByPrecedence u e) :
    IsExpr ByPrecedence u e := by
  simpa using IsExpr.intro h .nil .operand

namespace Expr

/-- The written form of the expression is read as an operand. -/
def IsReadBack (e : Expr) : Prop := ReadBack (IsPrimary ByPrecedence) Separate e e.toText

theorem isReadBack_number {x : Float} (h : Decimal.IsLiteral x) : (number x).IsReadBack := by
  obtain ⟨whole, fraction, hne, -, hwhole, hfraction, htext, hread⟩ := h
  have hreads := Reads.number hne hwhole hfraction
  -- Read on its own, the text gives the number itself, so these are the digits of the number.
  have hx : [Token.number (Decimal.ofDigits whole fraction)] = [.number x] := by
    rw [← hread, htext, ofSource_eq, String.toList_ofList]
    simpa [ofChars_nil] using (hreads [] nofun).symm
  refine ⟨[.number x], .number, ?_⟩
  rw [toText, htext, String.toList_ofList, ← hx]
  exact hreads

theorem isReadBack_text {s : String} (h : (Token.text s).IsLexeme) : (text s).IsReadBack := by
  refine ⟨[.text s], .text, ?_⟩
  simpa [toText] using Reads.text h

theorem isReadBack_name {ident : String} (h : (Token.name ident).IsLexeme) :
    (name ident).IsReadBack :=
  ⟨[.name ident], .name, Reads.name h⟩

theorem isReadBack_binary {op : Operator} {l r : Expr} (hl : l.IsReadBack) (hr : r.IsReadBack) :
    (binary op l r).IsReadBack := by
  obtain ⟨u, hu, hlread⟩ := hl
  obtain ⟨v, hv, hrread⟩ := hr
  have htext : (binary op l r).toText.toList =
      '(' :: (l.toText.toList ++ ' ' :: (op.text.toList ++ ' ' :: (r.toText.toList ++ [')']))) := by
    simp [toText]
  have hexpr : IsExpr ByPrecedence (u ++ .operator op :: v) (binary op l r) := by
    simpa using IsExpr.intro hu (.cons hv .nil) (ByPrecedence.node .operand .operand nofun nofun)
  refine ⟨_, .paren hexpr, ?_⟩
  rw [htext, List.append_assoc]
  exact .sign rfl rfl (hlread.append_cons rfl (.blank rfl (.operator op
    (.blank rfl (hrread.append_cons rfl (.sign rfl rfl .nil))))))

/-- The written forms of the expressions are read as arguments. -/
def AreReadBack (es : List Expr) : Prop :=
  ReadBack (IsArgs ByPrecedence) Separate es (commaSeparated (toTexts es))

theorem areReadBack_one {e : Expr} (h : e.IsReadBack) : AreReadBack [e] := by
  obtain ⟨u, hu, hread⟩ := h
  refine ⟨u, .one hu.isExpr, ?_⟩
  simpa [toTexts, commaSeparated] using hread

theorem areReadBack_cons {e : Expr} {es : List Expr} (h : e.IsReadBack) (hs : AreReadBack es)
    (hne : es ≠ []) : AreReadBack (e :: es) := by
  obtain ⟨u, hu, hread⟩ := h
  obtain ⟨v, hv, hreads⟩ := hs
  obtain ⟨e', es, rfl⟩ := List.exists_cons_of_ne_nil hne
  have htext : (commaSeparated (toTexts (e :: e' :: es))).toList =
      e.toText.toList ++ ',' :: ' ' :: (commaSeparated (toTexts (e' :: es))).toList := by
    simp [toTexts, commaSeparated]
  refine ⟨u ++ .mark .comma :: v, .cons hu.isExpr hv, ?_⟩
  rw [htext]
  exact hread.append_cons rfl (.sign rfl rfl (.blank rfl hreads))

theorem isReadBack_callNone {ident : String} (h : (Token.name ident).IsLexeme) :
    (call ident []).IsReadBack := by
  have htext : (call ident []).toText.toList = ident.toList ++ '(' :: [')'] := by
    simp [toText, toTexts, commaSeparated]
  refine ⟨_, .callNone, ?_⟩
  rw [htext]
  exact (Reads.name h).append_cons rfl (.sign rfl rfl (.sign rfl rfl .nil))

theorem isReadBack_call {ident : String} {es : List Expr} (h : (Token.name ident).IsLexeme)
    (hs : AreReadBack es) : (call ident es).IsReadBack := by
  obtain ⟨u, hu, hreads⟩ := hs
  have htext : (call ident es).toText.toList =
      ident.toList ++ '(' :: ((commaSeparated (toTexts es)).toList ++ [')']) := by
    simp [toText]
  refine ⟨_, .call hu, ?_⟩
  rw [htext]
  exact (Reads.name h).append_cons rfl (.sign rfl rfl (hreads.append_cons rfl (.sign rfl rfl .nil)))

/-- A tree over operands that are read back is read back, whichever tree of the chain it is. -/
theorem isReadBack_of_inOrder {p e : Expr} {c : Chain} (h : InOrder p c e) (hp : p.IsReadBack)
    (hc : ∀ x ∈ c, x.2.IsReadBack) : e.IsReadBack := by
  induction h with
  | operand => exact hp
  | node _ _ ihLeft ihRight =>
    obtain ⟨h₁, h₂⟩ := List.forall_mem_append.mp hc
    obtain ⟨hq, h₂⟩ := List.forall_mem_cons.mp h₂
    exact isReadBack_binary (ihLeft hp h₁) (ihRight hq h₂)

theorem numbers_of_inOrder {p e : Expr} {c : Chain} (h : InOrder p c e) :
    e.numbers = p.numbers ++ c.flatMap (·.2.numbers) := by
  induction h with
  | operand => simp
  | node _ _ ihLeft ihRight => simp [numbers, ihLeft, ihRight]

end Expr

/-! ### Parsed expressions

The recursion is over the derivation from the source text. Its tokens are lexemes, which settles
names and texts; numbers are settled by the condition on the tree.
-/

mutual

theorem isReadBack_of_isPrimary {u : List Token} {p : Expr} : IsPrimary InOrder u p →
    (∀ t ∈ u, t.IsLexeme) → (∀ x ∈ p.numbers, Decimal.IsLiteral x) → p.IsReadBack
  | .number, _, hx => Expr.isReadBack_number (hx _ (by simp [Expr.numbers]))
  | .text, ht, _ => Expr.isReadBack_text (ht _ (by simp))
  | .name, ht, _ => Expr.isReadBack_name (ht _ (by simp))
  | .callNone, ht, _ => Expr.isReadBack_callNone (ht _ (by simp))
  | .call args, ht, hx =>
    Expr.isReadBack_call (ht _ (by simp))
      (areReadBack_of_isArgs args (by grind) (by grind [Expr.numbers]))
  | .paren inner, ht, hx => isReadBack_of_isExpr inner (by grind) hx
termination_by structural h => h

theorem isReadBack_of_isOperands {u : List Token} {c : Chain} : IsOperands InOrder u c →
    (∀ t ∈ u, t.IsLexeme) → (∀ x ∈ c.flatMap (·.2.numbers), Decimal.IsLiteral x) →
      ∀ x ∈ c, x.2.IsReadBack
  | .nil, _, _ => nofun
  | .cons operand others, ht, hx => by
    rw [List.flatMap_cons] at hx
    refine List.forall_mem_cons.mpr ⟨?_, ?_⟩
    · exact isReadBack_of_isPrimary operand (by grind) (by grind)
    · exact isReadBack_of_isOperands others (by grind) (by grind)
termination_by structural h => h

theorem isReadBack_of_isExpr {u : List Token} {e : Expr} : IsExpr InOrder u e →
    (∀ t ∈ u, t.IsLexeme) → (∀ x ∈ e.numbers, Decimal.IsLiteral x) → e.IsReadBack
  | .intro first others reading, ht, hx => by
    rw [Expr.numbers_of_inOrder reading] at hx
    refine Expr.isReadBack_of_inOrder reading ?_ ?_
    · exact isReadBack_of_isPrimary first (by grind) (by grind)
    · exact isReadBack_of_isOperands others (by grind) (by grind)
termination_by structural h => h

theorem areReadBack_of_isArgs {u : List Token} {es : List Expr} : IsArgs InOrder u es →
    (∀ t ∈ u, t.IsLexeme) → (∀ x ∈ Expr.allNumbers es, Decimal.IsLiteral x) →
      Expr.AreReadBack es
  | .one arg, ht, hx =>
    Expr.areReadBack_one (isReadBack_of_isExpr arg ht (by grind [Expr.allNumbers]))
  | .cons arg others, ht, hx => by
    refine Expr.areReadBack_cons ?_ ?_ ?_
    · exact isReadBack_of_isExpr arg (by grind) (by grind [Expr.allNumbers])
    · exact areReadBack_of_isArgs others (by grind) (by grind [Expr.allNumbers])
    · cases others <;> simp
termination_by structural h => h

end

/-! ## Statements -/

/-- A name that is given a value. -/
theorem reads_binding (k : Keyword) {ident : String} {e : Expr} {u : List Token}
    (h : (Token.name ident).IsLexeme) (hread : Reads Separate e.toText.toList u) :
    Reads Anything (k.text.toList ++
        ' ' :: (ident.toList ++ ' ' :: '=' :: ' ' :: (e.toText.toList ++ [';'])))
      (.keyword k :: .name ident :: .operator .equal :: (u ++ [.mark .semi])) :=
  .keyword k ((Reads.name h).append_cons rfl (.blank rfl (.sign rfl rfl (.blank rfl
    (hread.append_cons rfl (.sign rfl rfl .nil))))))

namespace Stmt

/-- The written form of the statement is read as the statement. -/
def IsReadBack (s : Stmt) : Prop := ReadBack (IsStmt ByPrecedence) Anything s s.toText

/-- The written forms of the statements, one behind the other, are read as the statements. -/
def AreReadBack (ss : List Stmt) : Prop :=
  ReadBack (IsStmts ByPrecedence) Anything ss (bodyText ss)

/-- The written form of the block is read as the block. -/
def IsBlockReadBack (ss : List Stmt) : Prop :=
  ReadBack (IsBlock ByPrecedence) Anything ss (braced (bodyText ss))

theorem isReadBack_assign {ident : String} {e : Expr} (h : (Token.name ident).IsLexeme)
    (he : e.IsReadBack) : (assign ident e).IsReadBack := by
  obtain ⟨u, hu, hread⟩ := he
  refine ⟨_, .assign (.inl rfl) hu.isExpr, ?_⟩
  simpa [toText, Keyword.text] using reads_binding .setKw h hread

theorem isReadBack_ret {e : Expr} (he : e.IsReadBack) : (ret e).IsReadBack := by
  obtain ⟨u, hu, hread⟩ := he
  have htext : (ret e).toText.toList =
      Keyword.returnKw.text.toList ++ ' ' :: (e.toText.toList ++ [';']) := by
    simp [toText, Keyword.text]
  refine ⟨_, .ret hu.isExpr, ?_⟩
  rw [htext]
  exact .keyword .returnKw (hread.append_cons rfl (.sign rfl rfl .nil))

theorem isReadBack_eval {e : Expr} (he : e.IsReadBack) : (eval e).IsReadBack := by
  obtain ⟨u, hu, hread⟩ := he
  have htext : (eval e).toText.toList = e.toText.toList ++ [';'] := by simp [toText]
  refine ⟨_, .eval hu.isExpr, ?_⟩
  rw [htext]
  exact hread.append_cons rfl (.sign rfl rfl .nil)

/-- A condition with a block behind it. -/
theorem isReadBack_guarded (k : Keyword) {e : Expr} {ss : List Stmt} {s : Stmt}
    (he : e.IsReadBack) (hss : IsBlockReadBack ss)
    (hstmt : ∀ u v, IsExpr ByPrecedence u e → IsBlock ByPrecedence v ss →
      IsStmt ByPrecedence (.keyword k :: (u ++ v)) s)
    (htext : s.toText = k.text ++ " " ++ e.toText ++ " " ++ braced (bodyText ss)) :
    s.IsReadBack := by
  obtain ⟨u, hu, hread⟩ := he
  obtain ⟨v, hv, hreads⟩ := hss
  have hform : Reads Anything
      (k.text.toList ++ ' ' :: (e.toText.toList ++ ' ' :: (braced (bodyText ss)).toList))
      (.keyword k :: (u ++ v)) :=
    .keyword k (hread.append_cons rfl (.blank rfl hreads))
  refine ⟨_, hstmt u v hu.isExpr hv, ?_⟩
  simpa [htext] using hform

theorem isReadBack_ifThen {e : Expr} {ss : List Stmt} (he : e.IsReadBack)
    (hss : IsBlockReadBack ss) : (ifThen e ss).IsReadBack := by
  refine isReadBack_guarded .ifKw he hss (fun u v hu hv ↦ ?_) (by simp [toText, Keyword.text])
  simpa using IsStmt.ifThen hu hv (.inl rfl)

theorem isReadBack_loop {e : Expr} {ss : List Stmt} (he : e.IsReadBack)
    (hss : IsBlockReadBack ss) : (loop e ss).IsReadBack := by
  refine isReadBack_guarded .whileKw he hss (fun u v hu hv ↦ ?_) (by simp [toText, Keyword.text])
  simpa using IsStmt.loop hu hv (.inl rfl)

theorem isReadBack_ifElse {e : Expr} {ss ss' : List Stmt} (he : e.IsReadBack)
    (hss : IsBlockReadBack ss) (hss' : IsBlockReadBack ss') : (ifElse e ss ss').IsReadBack := by
  obtain ⟨u, hu, hread⟩ := he
  obtain ⟨v, hv, hreads⟩ := hss
  obtain ⟨w, hw, hreads'⟩ := hss'
  have htext : (ifElse e ss ss').toText.toList = Keyword.ifKw.text.toList ++
      ' ' :: (e.toText.toList ++ ' ' :: ((braced (bodyText ss)).toList ++
        ' ' :: (Keyword.elseKw.text.toList ++ ' ' :: (braced (bodyText ss')).toList))) := by
    simp [toText, Keyword.text]
  have hstmt : IsStmt ByPrecedence (.keyword .ifKw :: (u ++ (v ++ .keyword .elseKw :: w)))
      (ifElse e ss ss') := by
    simpa using IsStmt.ifElse hu.isExpr hv hw (.inl rfl)
  refine ⟨_, hstmt, ?_⟩
  rw [htext]
  exact .keyword .ifKw (hread.append_cons rfl (.blank rfl (hreads.append
    (.blank rfl (.keyword .elseKw hreads')))))

theorem areReadBack_one {s : Stmt} (h : s.IsReadBack) : AreReadBack [s] := by
  obtain ⟨u, hu, hread⟩ := h
  have htext : (bodyText [s]).toList = ' ' :: s.toText.toList := by simp [bodyText]
  refine ⟨u, .one hu, ?_⟩
  rw [htext]
  exact .blank rfl hread

theorem areReadBack_cons {s : Stmt} {ss : List Stmt} (h : s.IsReadBack) (hs : AreReadBack ss) :
    AreReadBack (s :: ss) := by
  obtain ⟨u, hu, hread⟩ := h
  obtain ⟨v, hv, hreads⟩ := hs
  have htext : (bodyText (s :: ss)).toList = ' ' :: (s.toText.toList ++ (bodyText ss).toList) := by
    simp [bodyText]
  refine ⟨u ++ v, .cons hu hv, ?_⟩
  rw [htext]
  exact .blank rfl (hread.append hreads)

theorem isBlockReadBack_of_are {ss : List Stmt} (h : AreReadBack ss) : IsBlockReadBack ss := by
  obtain ⟨u, hu, hreads⟩ := h
  have htext : (braced (bodyText ss)).toList =
      '\x7b' :: ((bodyText ss).toList ++ [' ', '\x7d']) := by
    simp [braced]
  refine ⟨_, .intro hu, ?_⟩
  rw [htext]
  exact .sign rfl rfl (hreads.append (.blank rfl (.sign rfl rfl .nil)))

end Stmt

mutual

theorem isReadBack_of_isStmt {u : List Token} {s : Stmt} : IsStmt InOrder u s →
    (∀ t ∈ u, t.IsLexeme) → (∀ x ∈ s.numbers, Decimal.IsLiteral x) → s.IsReadBack
  | .assign _ value, ht, hx =>
    Stmt.isReadBack_assign (ht _ (by simp))
      (isReadBack_of_isExpr value (by grind) (by grind [Stmt.numbers]))
  | .ret value, ht, hx =>
    Stmt.isReadBack_ret (isReadBack_of_isExpr value (by grind) (by grind [Stmt.numbers]))
  | .ifThen cond body _, ht, hx =>
    Stmt.isReadBack_ifThen (isReadBack_of_isExpr cond (by grind) (by grind [Stmt.numbers]))
      (isReadBack_of_isBlock body (by grind) (by grind [Stmt.numbers]))
  | .ifElse cond body otherwise _, ht, hx =>
    Stmt.isReadBack_ifElse (isReadBack_of_isExpr cond (by grind) (by grind [Stmt.numbers]))
      (isReadBack_of_isBlock body (by grind) (by grind [Stmt.numbers]))
      (isReadBack_of_isBlock otherwise (by grind) (by grind [Stmt.numbers]))
  | .loop cond body _, ht, hx =>
    Stmt.isReadBack_loop (isReadBack_of_isExpr cond (by grind) (by grind [Stmt.numbers]))
      (isReadBack_of_isBlock body (by grind) (by grind [Stmt.numbers]))
  | .eval value, ht, hx =>
    Stmt.isReadBack_eval (isReadBack_of_isExpr value (by grind) (by grind [Stmt.numbers]))
termination_by structural h => h

theorem areReadBack_of_isStmts {u : List Token} {ss : List Stmt} : IsStmts InOrder u ss →
    (∀ t ∈ u, t.IsLexeme) → (∀ x ∈ Stmt.allNumbers ss, Decimal.IsLiteral x) →
      Stmt.AreReadBack ss
  | .one only, ht, hx =>
    Stmt.areReadBack_one (isReadBack_of_isStmt only ht (by grind [Stmt.allNumbers]))
  | .cons first others, ht, hx =>
    Stmt.areReadBack_cons (isReadBack_of_isStmt first (by grind) (by grind [Stmt.allNumbers]))
      (areReadBack_of_isStmts others (by grind) (by grind [Stmt.allNumbers]))
termination_by structural h => h

theorem isReadBack_of_isBlock {u : List Token} {ss : List Stmt} : IsBlock InOrder u ss →
    (∀ t ∈ u, t.IsLexeme) → (∀ x ∈ Stmt.allNumbers ss, Decimal.IsLiteral x) →
      Stmt.IsBlockReadBack ss
  | .intro inner, ht, hx =>
    Stmt.isBlockReadBack_of_are (areReadBack_of_isStmts inner (by grind) hx)
termination_by structural h => h

end

/-! ## Declarations -/

theorem reads_param {u : List Token} {p : Param} (h : IsParam u p) (ht : ∀ t ∈ u, t.IsLexeme) :
    Reads Separate p.toText.toList u := by
  have hreads (t : TypeWord) {ident : String} (h : (Token.name ident).IsLexeme) :
      Reads Separate (Param.mk t.toTy ident).toText.toList [.ty t, .name ident] := by
    simpa [Param.toText] using Reads.typeWord t (.name h)
  cases h with
  | double => exact hreads .double (ht _ (by simp))
  | string => exact hreads .string (ht _ (by simp))

theorem reads_params {u : List Token} {ps : List Param} (h : IsParams u ps)
    (ht : ∀ t ∈ u, t.IsLexeme) :
    Reads Separate (commaSeparated (ps.map Param.toText)).toList u := by
  induction h with
  | one param => simpa [commaSeparated] using reads_param param ht
  | @cons u v p ps param others ih =>
    obtain ⟨q, ps, rfl⟩ := List.exists_cons_of_ne_nil (show ps ≠ [] by cases others <;> simp)
    have htext : (commaSeparated ((p :: q :: ps).map Param.toText)).toList =
        p.toText.toList ++ ',' :: ' ' :: (commaSeparated ((q :: ps).map Param.toText)).toList := by
      simp [commaSeparated]
    rw [htext]
    exact (reads_param param (by grind)).append_cons rfl
      (.sign rfl rfl (.blank rfl (ih (by grind))))

/-- The head of a function is written as it is parsed. -/
theorem reads_prototype {u : List Token} {head : Prototype} (h : IsPrototype u head)
    (ht : ∀ t ∈ u, t.IsLexeme) : Reads Anything head.toText.toList u := by
  cases h with
  | @noParams t ident =>
    have htext : (Prototype.mk t.toTy ident []).toText.toList =
        t.toTy.text.toList ++ ' ' :: (ident.toList ++ '(' :: [')']) := by
      simp [Prototype.toText, commaSeparated]
    rw [htext]
    exact .typeWord t ((Reads.name (ht _ (by simp))).append_cons rfl
      (.sign rfl rfl (.sign rfl rfl .nil)))
  | @params t ident u ps params =>
    have htext : (Prototype.mk t.toTy ident ps).toText.toList = t.toTy.text.toList ++
        ' ' :: (ident.toList ++
          '(' :: ((commaSeparated (ps.map Param.toText)).toList ++ [')'])) := by
      simp [Prototype.toText]
    rw [htext]
    exact .typeWord t ((Reads.name (ht _ (by simp))).append_cons rfl
      (.sign rfl rfl ((reads_params params (by grind)).append_cons rfl (.sign rfl rfl .nil))))

/-- The written form of the declaration is read as the declaration. -/
def Decl.IsReadBack (d : Decl) : Prop := ReadBack (IsDecl ByPrecedence) Anything d d.toText

theorem isReadBack_of_isDecl {u : List Token} {d : Decl} (h : IsDecl InOrder u d)
    (ht : ∀ t ∈ u, t.IsLexeme) (hx : ∀ x ∈ d.numbers, Decimal.IsLiteral x) : d.IsReadBack := by
  cases h with
  | @function u v head ss prototype body =>
    obtain ⟨w, hw, hreads⟩ := isReadBack_of_isBlock body (by grind) hx
    have htext : (Decl.function head ss).toText.toList = Keyword.defKw.text.toList ++
        ' ' :: (head.toText.toList ++ ' ' :: (braced (Stmt.bodyText ss)).toList) := by
      simp [Decl.toText, Keyword.text]
    refine ⟨_, .function prototype hw, ?_⟩
    rw [htext]
    exact .keyword .defKw ((reads_prototype prototype (by grind)).append (.blank rfl hreads))
  | @external u head prototype =>
    have htext : (Decl.external head).toText.toList =
        Keyword.externKw.text.toList ++ ' ' :: (head.toText.toList ++ [';']) := by
      simp [Decl.toText, Keyword.text]
    refine ⟨_, .external prototype, ?_⟩
    rw [htext]
    exact .keyword .externKw
      ((reads_prototype prototype (by grind)).append (.sign rfl rfl .nil))
  | @constant u w ident e value _ =>
    obtain ⟨v, hv, hread⟩ := isReadBack_of_isExpr value (by grind) hx
    refine ⟨_, .constant hv.isExpr (.inr rfl), ?_⟩
    simpa [Decl.toText, Keyword.text] using reads_binding .constKw (ht _ (by simp)) hread

theorem isReadBack_of_isProgram {u : List Token} {ds : List Decl} (h : IsProgram InOrder u ds)
    (ht : ∀ t ∈ u, t.IsLexeme) (hx : ∀ d ∈ ds, ∀ x ∈ d.numbers, Decimal.IsLiteral x) :
    ∀ d ∈ ds, d.IsReadBack := by
  induction h with
  | nil => exact nofun
  | semi _ ih => exact ih (by grind) hx
  | decl first _ ih =>
    obtain ⟨hfirst, hothers⟩ := List.forall_mem_cons.mp hx
    refine List.forall_mem_cons.mpr ⟨?_, ?_⟩
    · exact isReadBack_of_isDecl first (by grind) hfirst
    · exact ih (by grind) hothers

/-! ## Programs -/

/-- The written forms of declarations, each with a gap behind it. -/
def rendering : List (Decl × String) → String
  | [] => ""
  | (d, gap) :: parts => d.toText ++ gap ++ rendering parts

theorem isProgram_rendering {parts : List (Decl × String)}
    (hdecls : ∀ part ∈ parts, part.1.IsReadBack)
    (hgaps : ∀ part ∈ parts, ∀ c ∈ part.2.toList, isBlank c = true) :
    IsProgram ByPrecedence (ofSource (rendering parts)) (parts.map Prod.fst) := by
  induction parts with
  | nil =>
    have hnil : ofSource (rendering []) = [] := ofChars_nil
    rw [hnil]
    exact .nil
  | cons part parts ih =>
    obtain ⟨hdecl, hdecls⟩ := List.forall_mem_cons.mp hdecls
    obtain ⟨hgap, hgaps⟩ := List.forall_mem_cons.mp hgaps
    obtain ⟨u, hu, hread⟩ := hdecl
    have htokens : ofSource (rendering (part :: parts)) = u ++ ofSource (rendering parts) := by
      have hreads : Reads Anything (part.1.toText.toList ++ part.2.toList) (u ++ []) :=
        hread.append (Reads.gap hgap)
      simpa [ofSource_eq, rendering] using hreads (rendering parts).toList trivial
    rw [htokens]
    exact .decl hu (ih hdecls hgaps)

/-- What was parsed is parsed again from its written form, whatever blanks stand between the
declarations. -/
theorem program_rendering {source : String} {parts : List (Decl × String)}
    (hparse : (Parse.program (ofSource source)).result = .ok (parts.map Prod.fst))
    (hnumbers : ∀ part ∈ parts, ∀ x ∈ part.1.numbers, Decimal.IsLiteral x)
    (hgaps : ∀ part ∈ parts, ∀ c ∈ part.2.toList, isBlank c = true) :
    (Parse.program (ofSource (rendering parts))).result = .ok (parts.map Prod.fst) := by
  have hprogram : IsProgram InOrder (ofSource source) (parts.map Prod.fst) :=
    Parse.program_sound (fun _ _ _ h ↦ h.inOrder) _ hparse
  have hdecls : ∀ d ∈ parts.map Prod.fst, d.IsReadBack :=
    isReadBack_of_isProgram hprogram (fun _ ↦ isLexeme_of_mem_ofSource)
      (List.forall_mem_map.mpr hnumbers)
  exact Parse.result_program_eq_ok_iff.mpr
    (isProgram_rendering (List.forall_mem_map.mp hdecls) hgaps)

/-- The written form of the first declaration is `const k = ((2.0 - 0.1) - j);`. -/
theorem program_rendering_chain :
    (Decimal.IsLiteral 2 ∧ Decimal.IsLiteral 0.1) ∧
      (Parse.program (ofSource (rendering
        [(.constant "k" (.binary .sub (.binary .sub (.number 2) (.number 0.1)) (.name "j")),
            "\n\t"),
          (.function ⟨.void, "g", [⟨.string, "s"⟩]⟩
            [.ifThen (.number 2) [.eval (.call "g" [.text "a; b"])]], "")]))).result =
        .ok [.constant "k" (.binary .sub (.binary .sub (.number 2) (.number 0.1)) (.name "j")),
          .function ⟨.void, "g", [⟨.string, "s"⟩]⟩
            [.ifThen (.number 2) [.eval (.call "g" [.text "a; b"])]]] := by
  have htwo : Decimal.IsLiteral 2 :=
    ⟨['2'], ['0'], by simp, by simp, by simp, by simp, by decide +kernel, by decide +kernel⟩
  have htenth : Decimal.IsLiteral 0.1 :=
    ⟨['0'], ['1'], by simp, by simp, by simp, by simp, by decide +kernel, by decide +kernel⟩
  have htokens : ofSource
      "const k = 2 - 0.10 - j def void g(string s) \x7b if (2) \x7b g((\"a; b\")); \x7d; \x7d" =
      [.keyword .constKw, .name "k", .operator .equal, .number 2, .operator .sub, .number 0.1,
        .operator .sub, .name "j", .keyword .defKw, .ty .void, .name "g", .mark .openParen,
        .ty .string, .name "s", .mark .closeParen, .mark .openBrace, .keyword .ifKw,
        .mark .openParen, .number 2, .mark .closeParen, .mark .openBrace, .name "g",
        .mark .openParen, .mark .openParen, .text "a; b", .mark .closeParen, .mark .closeParen,
        .mark .semi, .mark .closeBrace, .mark .semi, .mark .closeBrace] := by decide +kernel
  refine ⟨⟨htwo, htenth⟩, program_rendering
    ((congrArg (fun ts ↦ (Parse.program ts).result) htokens).trans ?_) ?_ ?_⟩
  · decide +kernel
  · simp [Decl.numbers, Stmt.allNumbers, Stmt.numbers, Expr.numbers, Expr.allNumbers, htwo, htenth]
  · exact List.forall_mem_cons.mpr
      ⟨List.all_eq_true.mp rfl, List.forall_mem_singleton.mpr (List.all_eq_true.mp rfl)⟩

end BlockCompiler
