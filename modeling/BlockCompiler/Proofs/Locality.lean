import BlockCompiler.Proofs.Contents
import BlockCompiler.Proofs.Rollback

/-!
# Statements append to their own function only

Statements are lowered at a cursor, the end of a block of some function. Whether they are accepted
or refused, all other functions and scopes stay as they are, and so do the string constants. Within
the function the blocks stay in order, and their code is only added to: at the cursor, in new
blocks, and by new slots in front of the entry (`Lowering.stmtsAt_appends`). The place of the cursor
is what carries the induction: it starts at a block, and from there it moves on to new blocks only
(`Frame.Untouched`).
-/

namespace BlockCompiler

/-! ## Blocks behind the cursor -/

namespace Frame

/-- The cursor has not left the block where it started for another block than a new one: the first
`n` blocks are the old ones. -/
def IsCursor (n start block : Nat) : Prop := block = start ∨ n ≤ block

/-- Of the first `n` blocks, all but the one where the cursor started have the given code. -/
structure Untouched (n start : Nat) (code : Nat → List Instr) (fr : Frame) : Prop where
  le_count : n ≤ fr.count
  code_eq : ∀ b < n, b ≠ start → fr.code b = code b

namespace Untouched

variable {n start block target : Nat} {code : Nat → List Instr} {fr : Frame}

theorem of_code_eq {fr' : Frame} (h : fr.Untouched n start code)
    (hblock : IsCursor n start block) (hcount : fr.count ≤ fr'.count)
    (hcode : ∀ b, b ≠ block → fr'.code b = fr.code b) : fr'.Untouched n start code := by
  refine ⟨Nat.le_trans h.le_count hcount, fun b hlt hne ↦ ?_⟩
  rw [hcode b, h.code_eq b hlt hne]
  rintro rfl
  exact hblock.elim hne (Nat.not_le.mpr hlt)

theorem withTape {t : Tape} (h : fr.Untouched n start code) (hblock : IsCursor n start block) :
    (fr.withTape block t).Untouched n start code :=
  h.of_code_eq hblock (Nat.le_of_eq count_withTape.symm) fun _ hne ↦ code_withTape_of_ne hne

theorem extend {more : List Instr} (h : fr.Untouched n start code)
    (hblock : IsCursor n start block) : (fr.extend block more).Untouched n start code :=
  h.of_code_eq hblock (Nat.le_of_eq count_extend.symm) fun _ hne ↦ code_extend_of_ne hne

theorem child {role : Role} (h : fr.Untouched n start code) :
    (fr.child block role).Untouched n start code :=
  h.of_code_eq (.inl rfl) (by simp) fun b _ ↦ code_child b

theorem declare {ident : String} {ty : Ty} (h : fr.Untouched n start code) :
    (fr.declare ident ty).Untouched n start code :=
  h.of_code_eq (.inl rfl) (Nat.le_refl _) fun _ _ ↦ rfl

theorem close (h : fr.Untouched n start code) (hblock : IsCursor n start block) :
    (fr.close block target).Untouched n start code := by
  unfold Frame.close
  split
  · exact h
  · split <;> exact h.extend hblock

end Untouched

end Frame

namespace Lowering

open BlockCompiler.Frame

variable {n start : Nat} {code : Nat → List Instr} {outer : Outer} {block : Nat}

theorem onBlock_untouched {α : Type} (m : Lowering Tape α) (hblock : IsCursor n start block) :
    Moves (Keeps (Untouched n start code)) (onBlock block m) :=
  fun _ h ↦ h.withTape hblock

theorem within_untouched {α : Type} (m : Env → Lowering Tape α) (hblock : IsCursor n start block) :
    Moves (Keeps (Untouched n start code)) (within outer block m) :=
  fun _ h ↦ h.withTape hblock

/-- The cursor may move on to a new block. -/
theorem childBlock_untouched (role : Role) :
    Triple (Untouched n start code) (childBlock block role)
      (fun new fr ↦ IsCursor n start new ∧ fr.Untouched n start code) (Untouched n start code) :=
  fun _ h ↦ ⟨.inr h.le_count, h.child⟩

theorem close_untouched (target : Nat) (hblock : IsCursor n start block) :
    Moves (Keeps (Untouched n start code)) (close block target) := by
  intro fr h
  rw [close_apply]
  exact h.close hblock

theorem assign_untouched (ident : String) (v : Value) (hblock : IsCursor n start block) :
    Moves (Keeps (Untouched n start code)) (assign outer block ident v) :=
  assign_keeps_of (fun _ _ h ↦ h.extend hblock) (fun _ _ _ _ _ h ↦ h.declare) ident v

theorem returnValue_untouched (v : Value) (hblock : IsCursor n start block) :
    Moves (Keeps (Untouched n start code)) (returnValue outer block v) :=
  returnValue_keeps_of (fun _ _ h ↦ h.extend hblock) v

mutual

theorem stmt_untouched : ∀ s block, IsCursor n start block →
    Triple (Untouched n start code) (stmt outer s block)
      (fun next fr ↦ IsCursor n start next ∧ fr.Untouched n start code) (Untouched n start code)
  | .assign ident value, block, hblock => by
    rw [stmt]
    exact (Invariant.requireOpen_keeps block).bind_triple fun _ ↦
      (within_untouched _ hblock).bind_triple fun v ↦
      (assign_untouched ident v hblock).bind_triple fun _ ↦ .of_pure fun _ h ↦ ⟨hblock, h⟩
  | .ret value, block, hblock => by
    rw [stmt]
    exact (Invariant.requireOpen_keeps block).bind_triple fun _ ↦
      (within_untouched _ hblock).bind_triple fun v ↦
      (returnValue_untouched v hblock).bind_triple fun _ ↦ .of_pure fun _ h ↦ ⟨hblock, h⟩
  | .ifThen cond body, block, hblock => by
    rw [stmt]
    exact (Invariant.requireOpen_keeps block).bind_triple fun _ ↦
      (within_untouched _ hblock).bind_triple fun c ↦
      (childBlock_untouched .ifTrue).bind_value fun ifTrue hifTrue ↦
      (childBlock_untouched .ifAfter).bind_value fun after hafter ↦
      (onBlock_untouched _ hblock).bind_triple fun _ ↦
      (stmts_untouched body ifTrue hifTrue).bind_value fun bodyEnd hbodyEnd ↦
      (close_untouched after hbodyEnd).bind_triple fun _ ↦ .of_pure fun _ h ↦ ⟨hafter, h⟩
  | .ifElse cond body otherwise, block, hblock => by
    rw [stmt]
    exact (Invariant.requireOpen_keeps block).bind_triple fun _ ↦
      (within_untouched _ hblock).bind_triple fun c ↦
      (childBlock_untouched .ifTrue).bind_value fun ifTrue hifTrue ↦
      (childBlock_untouched .ifFalse).bind_value fun ifFalse hifFalse ↦
      (childBlock_untouched .ifAfter).bind_value fun after hafter ↦
      (onBlock_untouched _ hblock).bind_triple fun _ ↦
      (stmts_untouched body ifTrue hifTrue).bind_value fun bodyEnd hbodyEnd ↦
      (close_untouched after hbodyEnd).bind_triple fun _ ↦
      (stmts_untouched otherwise ifFalse hifFalse).bind_value fun otherwiseEnd hotherwiseEnd ↦
      (close_untouched after hotherwiseEnd).bind_triple fun _ ↦ .of_pure fun _ h ↦ ⟨hafter, h⟩
  | .loop cond body, block, hblock => by
    rw [stmt]
    exact (Invariant.requireOpen_keeps block).bind_triple fun _ ↦
      (childBlock_untouched .whileTest).bind_value fun test htest ↦
      (childBlock_untouched .whileLoop).bind_value fun loop hloop ↦
      (childBlock_untouched .whileAfter).bind_value fun after hafter ↦
      (onBlock_untouched _ hblock).bind_triple fun _ ↦
      (within_untouched _ htest).bind_triple fun c ↦
      (onBlock_untouched _ htest).bind_triple fun _ ↦
      (stmts_untouched body loop hloop).bind_value fun bodyEnd hbodyEnd ↦
      (close_untouched test hbodyEnd).bind_triple fun _ ↦ .of_pure fun _ h ↦ ⟨hafter, h⟩
  | .eval value, block, hblock => by
    rw [stmt.eq_def]
    refine (Invariant.requireOpen_keeps block).bind_triple fun _ ↦ ?_
    cases value with
    | call ident args =>
      exact (within_untouched _ hblock).bind_triple fun _ ↦ .of_pure fun _ h ↦ ⟨hblock, h⟩
    | number | text | name | binary =>
      exact (within_untouched _ hblock).bind_triple fun _ ↦ .of_pure fun _ h ↦ ⟨hblock, h⟩
termination_by structural s => s

theorem stmts_untouched : ∀ ss block, IsCursor n start block →
    Triple (Untouched n start code) (stmts outer ss block)
      (fun next fr ↦ IsCursor n start next ∧ fr.Untouched n start code) (Untouched n start code)
  | [], block, hblock => .of_pure fun _ h ↦ ⟨hblock, h⟩
  | s :: rest, block, hblock => by
    rw [stmts]
    exact (stmt_untouched s block hblock).bind_value fun next hnext ↦
      stmts_untouched rest next hnext
termination_by structural ss => ss

end

/-- Nothing is lowered behind a terminator. -/
theorem stmts_of_isTerminated {ss : List Stmt} {fr : Frame}
    (h : fr.function.isTerminated block = true) : (stmts outer ss block fr).2 = fr := by
  cases ss with
  | nil => rfl
  | cons s rest =>
    have hs : stmt outer s block fr =
        (.error (.unreachableStmt fr.function.signature.symbol), fr) := by
      rw [stmt.eq_def, requireOpen, bind_assoc, bind_state_apply, bind_require_apply,
        if_neg (by simp [h])]
    rw [stmts, bind_apply, hs]

/-- A terminated block stays as it is, be it the one of the cursor or another one. -/
theorem code_stmts_of_isTerminated {ss : List Stmt} {fr : Frame} {b : Nat}
    (h : fr.function.isTerminated b = true) : (stmts outer ss block fr).2.code b = fr.code b := by
  by_cases hb : b = block
  · subst hb
    rw [stmts_of_isTerminated h]
  · obtain ⟨x, hx, -⟩ := (Option.any_eq_true _ _).mp h
    have huntouched : (stmts outer ss block fr).2.Untouched fr.count block fr.code :=
      (stmts_untouched ss block (.inl rfl)).keeps fr ⟨Nat.le_refl _, fun _ _ _ ↦ rfl⟩
    exact huntouched.code_eq b (List.getElem?_eq_some_iff.mp hx).1 hb

/-- Parameters keep their names, and blocks their names and their order. -/
theorem names_stable (outer : Outer) (params : List Param) (names : List String) :
    Stable outer fun fr ↦
      fr.function.params = params ∧ names <+: fr.function.blocks.map Block.name where
  withTape _ _ _ h := ⟨h.1, h.2.trans (prefix_of_eq (Function.map_name_setCode _))⟩
  extend _ _ _ h := ⟨h.1, h.2.trans (prefix_of_eq (Function.map_name_setCode _))⟩
  child _ _ _ h := ⟨h.1, h.2.trans (by simp [Frame.child, Function.addBlock])⟩
  declare _ _ _ _ _ h := h

/-! ## Statements in a module -/

/-- Statements at the end of a block of the function with the given number. -/
def stmtsAt (id block : Nat) (ss : List Stmt) : Lowering Context Nat :=
  inFunction id fun outer ↦ stmts outer ss block

theorem stmtsAt_apply {c : Context} {id block : Nat} {f : Function} (ss : List Stmt)
    (hf : c.functions[id]? = some f) :
    stmtsAt id block ss c =
      ((stmts c.outer ss block (c.frame id f)).1,
        c.withFrame id (stmts c.outer ss block (c.frame id f)).2) := by
  rw [stmtsAt, inFunction, hf]
  rfl

end Lowering

/-- What statements leave of the function in which they are lowered. -/
structure Function.AddedTo (f f' : Function) : Prop where
  signature : f'.signature = f.signature
  params : f'.params = f.params
  names : f.blocks.map Block.name <+: f'.blocks.map Block.name
  entry : ∃ (slots : List Slot) (more : List Instr),
    f'.contents 0 = slots.map .inl ++ f.contents 0 ++ more.map .inr
  others : ∀ b, b ≠ 0 → f.contents b <+: f'.contents b
  /-- Behind a terminator there is nothing new. -/
  terminated : ∀ b, f.isTerminated b = true →
    ∃ slots : List Slot, f'.contents b = slots.map .inl ++ f.contents b ∧ (b ≠ 0 → slots = [])

/-- New slots stand in front of the old ones. -/
theorem Function.contents_of_slots_eq {f f' : Function} {slots : List Slot} {more : List Instr}
    {b : Nat} (hslots : f'.slots = f.slots ++ slots) (hcode : f'.code b = f.code b ++ more) :
    f'.contents b =
      (if b = 0 then slots.reverse else []).map .inl ++ f.contents b ++ more.map .inr := by
  rw [contents, contents, hslots, hcode]
  split <;> simp

namespace Lowering

theorem addedTo_of_extends {fr fr' : Frame} (h : fr.Extends fr')
    (hparams : fr'.function.params = fr.function.params)
    (hnames : fr.function.blocks.map Block.name <+: fr'.function.blocks.map Block.name)
    (hterminated : ∀ b, fr.function.isTerminated b = true → fr'.code b = fr.code b) :
    fr.function.AddedTo fr'.function := by
  obtain ⟨slots, hslots⟩ := h.slots
  refine ⟨h.signature, hparams, hnames, ?_, fun b hb ↦ ?_, fun b hb ↦ ?_⟩
  · obtain ⟨more, hmore⟩ := h.code 0
    exact ⟨slots.reverse, more, Function.contents_of_slots_eq hslots.symm hmore.symm⟩
  · rw [Function.contents_of_ne hb, Function.contents_of_ne hb]
    exact (h.code b).map _
  · refine ⟨if b = 0 then slots.reverse else [], ?_, fun hne ↦ if_neg hne⟩
    have hcode : fr'.code b = fr.code b ++ [] := by rw [hterminated b hb, List.append_nil]
    rw [Function.contents_of_slots_eq hslots.symm hcode, List.map_nil, List.append_nil]

/-- Whether statements are accepted or refused at the end of a block, all functions but their own
stay as they are, all scopes but that of their function as well, and the string constants that were
there. The blocks of their function stay in order. An old block other than the entry keeps its
contents and may be continued; to those of the entry, slots are added in front and instructions
behind. A block that was terminated has no instruction added. -/
theorem stmtsAt_appends {c : Context} {id : Nat} {f : Function} (block : Nat) (ss : List Stmt)
    (hf : c.functions[id]? = some f) :
    let c' := (stmtsAt id block ss c).2
    (∃ f', c'.functions = c.functions.set id f' ∧ f.AddedTo f') ∧
      (∀ owner, owner ≠ .function id → c'.scopes.get? owner = c.scopes.get? owner) ∧
      c.symbols.texts <+: c'.symbols.texts := by
  intro c'
  have hextends := stmts_moves c.outer ss block (c.frame id f)
  have hnames := (names_stable c.outer f.params (f.blocks.map Block.name)).invariant.stmts_keeps
    ss block (c.frame id f) ⟨rfl, List.prefix_refl _⟩
  have heq : c' = c.withFrame id (stmts c.outer ss block (c.frame id f)).2 :=
    congrArg Prod.snd (stmtsAt_apply ss hf)
  rw [heq]
  refine ⟨⟨_, rfl, addedTo_of_extends hextends hnames.1 hnames.2 fun b hb ↦
    code_stmts_of_isTerminated hb⟩, fun owner howner ↦ ?_, hextends.symbols.texts⟩
  rw [Context.withFrame, ScopeTable.get?_replace, if_neg howner]

/-- The body of `f` is refused behind its conditional, in whose last block more statements are
lowered and refused: they set up two slots in front of the entry, which is terminated. -/
theorem stmtsAt_appends_terminated_entry :
    let c := Context.after [.function ⟨.double, "f", [⟨.double, "x"⟩]⟩
      [.ifThen (.name "x") [.ret (.name "x")], .eval (.call "g" [])]]
    let f := (c.functions[0]?).getD (Function.declared ⟨.double, "f", [⟨.double, "x"⟩]⟩ "f")
    let ss : List Stmt := [.assign "y" (.text "a"),
      .ifThen (.name "x") [.assign "z" (.name "x"), .eval (.call "g" [])]]
    f.isTerminated 0 = true ∧ (stmtsAt 0 2 ss c).1.isOk = false ∧
      ∃ f', (stmtsAt 0 2 ss c).2.functions = [f'] ∧ f.AddedTo f' ∧
        f'.contents 0 = [.inl ⟨"z", .double⟩, .inl ⟨"y", .string⟩] ++ f.contents 0 := by
  intro c f ss
  have hf : c.functions[0]? = some f := by decide +kernel
  have hone : c.functions = [f] := by decide +kernel
  obtain ⟨⟨f', hfunctions, hadded⟩, -, -⟩ := stmtsAt_appends 2 ss hf
  refine ⟨by decide +kernel, by decide +kernel, f', by rw [hfunctions, hone]; rfl, hadded, ?_⟩
  have hcontents : ((stmtsAt 0 2 ss c).2.functions.map (·.contents 0)) =
      [[.inl ⟨"z", .double⟩, .inl ⟨"y", .string⟩] ++ f.contents 0] := by decide +kernel
  rw [hfunctions, hone] at hcontents
  exact List.head_eq_of_cons_eq hcontents

end Lowering

end BlockCompiler
