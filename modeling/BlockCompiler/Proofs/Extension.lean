import BlockCompiler.Proofs.Invariant

/-!
# Lowering a body only extends its function

A body may be refused half-way, and what was lowered of it stays. Whatever the outcome, instructions
are appended to blocks, blocks and slots are added, and string constants are added to the module
(`Frame.Extends`). In particular no instruction that is there before a statement is ever taken back:
only the operands of one expression are, and only by that expression.

The relation is an invariant like others: what a frame extends, it still extends after every change
(`Lowering.extends_stable`).
-/

namespace BlockCompiler

theorem prefix_of_eq {α : Type} {xs ys : List α} (h : ys = xs) : xs <+: ys :=
  h ▸ List.prefix_refl ys

theorem getElem?_of_prefix {α : Type} {xs ys : List α} (h : xs <+: ys) {k : Nat} {x : α}
    (hx : xs[k]? = some x) : ys[k]? = some x := by
  obtain ⟨rest, rfl⟩ := h
  rw [List.getElem?_append_left (List.getElem?_eq_some_iff.mp hx).1, hx]

/-- Instructions, blocks, slots and string constants are added, and nothing is taken away. -/
structure Frame.Extends (fr fr' : Frame) : Prop where
  signature : fr'.function.signature = fr.function.signature
  params : fr'.function.params.map Param.ty = fr.function.params.map Param.ty
  count_le : fr.count ≤ fr'.count
  code : ∀ b, fr.code b <+: fr'.code b
  slots : fr.function.slots <+: fr'.function.slots
  symbols : fr.symbols.Extends fr'.symbols

namespace Frame.Extends

variable {fr fr₁ fr₂ fr₃ : Frame} {b parent target : Nat} {role : Role} {more : List Instr}

theorem refl (fr : Frame) : fr.Extends fr :=
  ⟨rfl, rfl, Nat.le_refl _, fun _ ↦ List.prefix_refl _, List.prefix_refl _, .refl _⟩

theorem trans (h₁ : fr₁.Extends fr₂) (h₂ : fr₂.Extends fr₃) : fr₁.Extends fr₃ where
  signature := h₂.signature.trans h₁.signature
  params := h₂.params.trans h₁.params
  count_le := Nat.le_trans h₁.count_le h₂.count_le
  code b := (h₁.code b).trans (h₂.code b)
  slots := h₁.slots.trans h₂.slots
  symbols := h₁.symbols.trans h₂.symbols

instance : Std.Refl Frame.Extends := ⟨refl⟩

instance : Trans Frame.Extends Frame.Extends Frame.Extends := ⟨trans⟩

/-! ## The changes of a frame -/

theorem extend : fr.Extends (fr.extend b more) := by
  refine ⟨rfl, rfl, Nat.le_of_eq count_extend.symm, fun x ↦ ?_, List.prefix_refl _, .refl _⟩
  obtain ⟨new, hnew, -⟩ := exists_code_extend fr b more x
  exact hnew ▸ List.prefix_append _ _

theorem withTape {t : Tape} (h : (fr.tape b).Extends t) : fr.Extends (fr.withTape b t) := by
  refine ⟨rfl, rfl, Nat.le_of_eq count_withTape.symm, fun x ↦ ?_, List.prefix_refl _, h.symbols⟩
  by_cases hx : x = b
  · subst hx
    rcases Nat.lt_or_ge x fr.count with hlt | hge
    · rw [code_withTape hlt]
      exact h.prefix_code
    · rw [code_of_le hge]
      exact List.nil_prefix
  · exact prefix_of_eq (code_withTape_of_ne hx)

theorem child : fr.Extends (fr.child parent role) := by
  exact ⟨rfl, rfl, by simp, fun x ↦ prefix_of_eq (code_child x), List.prefix_refl _, .refl _⟩

theorem declare {ident : String} {ty : Ty} : fr.Extends (fr.declare ident ty) :=
  ⟨rfl, rfl, Nat.le_refl _, fun _ ↦ List.prefix_refl _, List.prefix_append _ _, .refl _⟩

theorem close : fr.Extends (fr.close b target) := by
  unfold Frame.close
  split
  · exact refl fr
  · split <;> exact extend

end Frame.Extends

/-! ## Bodies -/

namespace Lowering

/-- What a frame extends, it extends after every change. -/
theorem extends_stable (outer : Outer) (fr : Frame) :
    StableAlong outer Tape.Extends (Frame.Extends fr) where
  withTape _ _ _ ht h := h.trans (.withTape ht)
  extend _ _ _ h := h.trans .extend
  child _ _ _ h := h.trans .child
  declare _ _ _ _ _ h := h.trans .declare

theorem extends_invariant (outer : Outer) (fr : Frame) :
    Invariant outer (Frame.Extends fr) (fun _ ↦ True) fun _ ↦ True :=
  (extends_stable outer fr).invariant extends_along

theorem emitPlain_moves (block : Nat) (i : Instr) :
    Moves Frame.Extends (onBlock block (emitPlain i)) := fun _ ↦
  .extend

theorem within_moves {α : Type} (outer : Outer) (block : Nat) {m : Env → Lowering Tape α}
    (h : ∀ env, Moves Tape.Extends (m env)) : Moves Frame.Extends (within outer block m) :=
  .of_keeps fun fr ↦ ((extends_stable outer fr).within_triple block h).keeps

theorem close_moves (block target : Nat) : Moves Frame.Extends (close block target) := by
  intro fr
  rw [close_apply]
  exact .close

theorem assign_moves (outer : Outer) (block : Nat) (ident : String) (value : Value) :
    Moves Frame.Extends (assign outer block ident value) :=
  .of_keeps fun fr ↦ (extends_invariant outer fr).assign block ident value trivial

theorem returnValue_moves (outer : Outer) (block : Nat) (value : Value) :
    Moves Frame.Extends (returnValue outer block value) :=
  .of_keeps fun fr ↦ (extends_invariant outer fr).returnValue block value trivial

theorem requireOpen_moves (block : Nat) : Moves Frame.Extends (requireOpen block) :=
  .of_keeps fun _ ↦ Invariant.requireOpen_keeps block

theorem stmt_moves (outer : Outer) (s : Stmt) (block : Nat) :
    Moves Frame.Extends (stmt outer s block) :=
  .of_keeps fun fr ↦ (extends_invariant outer fr).stmt_keeps s block

theorem stmts_moves (outer : Outer) (ss : List Stmt) (block : Nat) :
    Moves Frame.Extends (stmts outer ss block) :=
  .of_keeps fun fr ↦ (extends_invariant outer fr).stmts_keeps ss block

theorem finish_moves (head : Prototype) (block : Nat) :
    Moves Frame.Extends (finish head block) := by
  intro fr
  rw [finish, bind_state_apply]
  split
  · exact .refl fr
  · split
    · exact emitPlain_moves block _ fr
    · exact ((moves_require _ _).bind fun _ ↦ emitPlain_moves block _) fr

end Lowering

end BlockCompiler
