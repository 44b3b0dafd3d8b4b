import BlockCompiler.Proofs.Slots

/-!
# Declared beforehand

A function may be declared in front of its definition, and its parameters then have names already
when the definition comes. These are taken back one by one, so that a name of the definition can be
in use when its turn comes, and the parameter gets another one. Names of blocks are found in the
same table, and they go on from there.

Nothing depends on any of these names. A parameter is known by its place and a block by its number,
and what a name in the text means is bound before the first statement. So two runs that differ in
such names only (`Frame.Alike`) stay in step: each step yields the same, or fails for the same
cause, and leads to frames that differ in names only (`Lowering.Respects`).
-/

namespace BlockCompiler

/-! ## Functions without their names -/

namespace Function

/-- The function without the names of its parameters and blocks. -/
def unnamed (f : Function) : Function :=
  { f with
    params := f.params.map fun p ↦ { p with ident := "" }
    blocks := f.blocks.map fun b ↦ { b with name := "" }
    names := {} }

@[simp] theorem code_unnamed (f : Function) (b : Nat) : f.unnamed.code b = f.code b := by
  simp [code, unnamed, Function.comp_def]

@[simp] theorem isTerminated_unnamed (f : Function) (b : Nat) :
    f.unnamed.isTerminated b = f.isTerminated b := by
  rw [isTerminated_eq, isTerminated_eq, code_unnamed]

@[simp] theorem isDead_unnamed (f : Function) (b : Nat) : f.unnamed.isDead b = f.isDead b := by
  simp [isDead, targets, unnamed, List.flatMap_map]

@[simp] theorem length_blocks_unnamed (f : Function) :
    f.unnamed.blocks.length = f.blocks.length := by
  simp [unnamed]

@[simp] theorem paramValues_unnamed (f : Function) : f.unnamed.paramValues = f.paramValues := by
  simp [paramValues, unnamed, List.zipIdx_map, Function.comp_def]

theorem unnamed_setCode (f : Function) (b : Nat) (code : List Instr) :
    (f.setCode b code).unnamed = f.unnamed.setCode b code := by
  have hblocks : (f.blocks.modify b fun block ↦ { block with code }).map
        (fun block ↦ { block with name := "" }) =
      (f.blocks.map fun block ↦ { block with name := "" }).modify b
        fun block ↦ { block with code } := by
    apply List.ext_getElem?
    intro i
    simp only [List.getElem?_map, List.getElem?_modify]
    split <;> simp [Function.comp_def]
  rw [unnamed, setCode, hblocks]
  rfl

theorem unnamed_extend (f : Function) (b : Nat) (more : List Instr) :
    (f.extend b more).unnamed = f.unnamed.extend b more := by
  rw [extend, unnamed_setCode, extend, code_unnamed]

/-- A new block is found by its number only. -/
theorem unnamed_addBlock (f : Function) (wanted : String) :
    (f.addBlock wanted).unnamed =
      { f.unnamed with blocks := f.unnamed.blocks ++ [⟨"", []⟩] } := by
  rw [unnamed, addBlock, List.map_append]
  rfl

/-- Which names parameters get, and which they had, does not matter. -/
theorem unnamed_nameParams (f : Function) (head : Prototype) :
    (f.nameParams head).unnamed = f.unnamed := by
  have hparams (ps : List Param) : (ps.map fun p ↦ { p with ident := "" }) =
      (ps.map Param.ty).map fun ty ↦ ⟨ty, ""⟩ := by
    rw [List.map_map]
    rfl
  rw [unnamed, unnamed, hparams, hparams, map_ty_nameParams]
  rfl

/-- Functions that are declared with the same types differ in names only. -/
theorem unnamed_declared {head head' : Prototype} (hident : head'.ident = head.ident)
    (hret : head'.ret = head.ret) (hparams : head'.params.map Param.ty = head.params.map Param.ty)
    (symbol : String) : (declared head' symbol).unnamed = (declared head symbol).unnamed := by
  have hpassed (head : Prototype) :
      ((head.params.filter (·.ty.isStorable)).map fun p ↦ (⟨p.ty, ""⟩ : Param)) =
        ((head.params.map Param.ty).filter Ty.isStorable).map fun ty ↦ ⟨ty, ""⟩ := by
    rw [List.filter_map, List.map_map]
    rfl
  rw [declared, unnamed_nameParams, declared, unnamed_nameParams, hpassed, hpassed, hident, hret,
    hparams]

end Function

/-! ## Frames that differ in names -/

namespace Frame

/-- The frame without the names of parameters and blocks. -/
def unnamed (fr : Frame) : Frame := { fr with function := fr.function.unnamed }

/-- The frames differ at most in the names of parameters and blocks. -/
def Alike (fr fr' : Frame) : Prop := fr.unnamed = fr'.unnamed

variable {fr fr' : Frame}

/-- What does not depend on names is the same. -/
theorem Alike.same {α : Type} {g : Frame → α} (hg : ∀ fr, g fr.unnamed = g fr)
    (h : fr.Alike fr') : g fr = g fr' := by
  rw [← hg fr, h, hg fr']

theorem tape_unnamed (b : Nat) (fr : Frame) : fr.unnamed.tape b = fr.tape b := by
  rw [tape, tape, unnamed, code, Function.code_unnamed]

theorem Alike.withTape (h : fr.Alike fr') (b : Nat) (t : Tape) :
    (fr.withTape b t).Alike (fr'.withTape b t) := by
  have hcommutes (fr : Frame) : (fr.withTape b t).unnamed = fr.unnamed.withTape b t := by
    rw [unnamed, Frame.withTape, Function.unnamed_setCode]
    rfl
  rw [Alike, hcommutes, hcommutes, h]

theorem Alike.extend (h : fr.Alike fr') (b : Nat) (more : List Instr) :
    (fr.extend b more).Alike (fr'.extend b more) := by
  have hcommutes (fr : Frame) : (fr.extend b more).unnamed = fr.unnamed.extend b more := by
    rw [unnamed, Frame.extend, Function.unnamed_extend]
    rfl
  rw [Alike, hcommutes, hcommutes, h]

theorem Alike.child (h : fr.Alike fr') (parent : Nat) (role : Role) :
    (fr.child parent role).Alike (fr'.child parent role) := by
  have hbare (fr : Frame) : (fr.child parent role).unnamed =
      { fr.unnamed with
        function := { fr.unnamed.function with
          blocks := fr.unnamed.function.blocks ++ [⟨"", []⟩] } } := by
    rw [unnamed, Frame.child, Function.unnamed_addBlock]
    rfl
  rw [Alike, hbare, hbare, h]

theorem Alike.declare (h : fr.Alike fr') (ident : String) (ty : Ty) :
    (fr.declare ident ty).Alike (fr'.declare ident ty) :=
  congrArg (Frame.declare · ident ty) h

theorem Alike.enter (h : fr.Alike fr') (head : Prototype) :
    (fr.enter head).Alike (fr'.enter head) := by
  have hbare (fr : Frame) : (fr.enter head).unnamed =
      { fr.unnamed with
        function := { fr.unnamed.function with
          blocks := fr.unnamed.function.blocks ++ [⟨"", []⟩] }
        locals := fun _ ↦ none } := by
    rw [unnamed, Frame.enter, Function.unnamed_addBlock, Function.unnamed_nameParams]
    rfl
  rw [Alike, hbare, hbare, h]

theorem Alike.leave (h : fr.Alike fr') : fr.leave.Alike fr'.leave := congrArg Frame.leave h

theorem Alike.isTerminated (h : fr.Alike fr') (b : Nat) :
    fr.function.isTerminated b = fr'.function.isTerminated b :=
  h.same (g := fun fr ↦ fr.function.isTerminated b) fun fr ↦ fr.function.isTerminated_unnamed b

theorem Alike.isDead (h : fr.Alike fr') (b : Nat) :
    fr.function.isDead b = fr'.function.isDead b :=
  h.same (g := fun fr ↦ fr.function.isDead b) fun fr ↦ fr.function.isDead_unnamed b

theorem Alike.count (h : fr.Alike fr') : fr.count = fr'.count :=
  h.same (g := Frame.count) fun fr ↦ fr.function.length_blocks_unnamed

theorem Alike.tape (h : fr.Alike fr') (b : Nat) : fr.tape b = fr'.tape b :=
  h.same (g := fun fr ↦ fr.tape b) (tape_unnamed b)

theorem Alike.locals (h : fr.Alike fr') : fr.locals = fr'.locals :=
  h.same (g := Frame.locals) fun _ ↦ rfl

theorem Alike.slots (h : fr.Alike fr') : fr.function.slots = fr'.function.slots :=
  h.same (g := fun fr ↦ fr.function.slots) fun _ ↦ rfl

theorem Alike.signature (h : fr.Alike fr') : fr.function.signature = fr'.function.signature :=
  h.same (g := fun fr ↦ fr.function.signature) fun _ ↦ rfl

theorem Alike.close (h : fr.Alike fr') (b target : Nat) :
    (fr.close b target).Alike (fr'.close b target) := by
  unfold Frame.close
  rw [h.isTerminated, h.isDead]
  split
  · exact h
  · split <;> exact h.extend b _

end Frame

namespace Lowering

/-! ## Two runs -/

section

variable {σ α β : Type} {R : σ → σ → Prop}

/-- Started in related states, the step yields the same and leads to related states. -/
def Respects (R : σ → σ → Prop) (m : Lowering σ α) : Prop :=
  ∀ s s', R s s' → (m s).1 = (m s').1 ∧ R (m s).2 (m s').2

theorem respects_pure (a : α) : Respects R (pure a : Lowering σ α) := fun _ _ h ↦ ⟨rfl, h⟩

theorem respects_require (cond : Prop) [Decidable cond] (e : LoweringError) :
    Respects R (require cond e : Lowering σ Unit) := by
  intro s s' h
  rw [require_apply, require_apply]
  exact ⟨rfl, h⟩

theorem Respects.bind {m : Lowering σ α} {f : α → Lowering σ β} (hm : Respects R m)
    (hf : ∀ a, Respects R (f a)) : Respects R (m >>= f) := by
  intro s s' h
  obtain ⟨hresult, hstate⟩ := hm s s' h
  rw [bind_apply, bind_apply]
  generalize m s = x, m s' = y at hresult hstate
  obtain ⟨r, t⟩ := x
  obtain ⟨r', t'⟩ := y
  obtain rfl : r = r' := hresult
  cases r with
  | error => exact ⟨rfl, hstate⟩
  | ok a => exact hf a t t' hstate

/-- What a step reads of the state has to be the same. -/
theorem respects_bind_state {f : σ → Lowering σ α} (hread : ∀ s s', R s s' → f s = f s')
    (hf : ∀ s, Respects R (f s)) : Respects R (state >>= f) := by
  intro s s' h
  rw [bind_state_apply, bind_state_apply, hread s s' h]
  exact hf s' s s' h

end

/-! ## Blocks and variables -/

theorem onBlock_respects {α : Type} (block : Nat) (m : Lowering Tape α) :
    Respects Frame.Alike (onBlock block m) := by
  intro fr fr' h
  rw [onBlock_apply, onBlock_apply, h.tape]
  exact ⟨rfl, h.withTape block _⟩

theorem within_respects {α : Type} (outer : Outer) (block : Nat) (m : Env → Lowering Tape α) :
    Respects Frame.Alike (within outer block m) :=
  respects_bind_state (fun fr fr' h ↦ by rw [Frame.env, h.locals, ← Frame.env])
    fun fr ↦ onBlock_respects block _

theorem childBlock_respects (parent : Nat) (role : Role) :
    Respects Frame.Alike (childBlock parent role) := by
  intro fr fr' h
  rw [childBlock_apply, childBlock_apply, h.count]
  exact ⟨rfl, h.child parent role⟩

theorem close_respects (block target : Nat) : Respects Frame.Alike (close block target) := by
  intro fr fr' h
  rw [close_apply, close_apply]
  exact ⟨rfl, h.close block target⟩

theorem store_respects (block : Nat) (ident : String) (value : Value) (b : Binding) :
    Respects Frame.Alike (store block ident value b) :=
  ((respects_require _ _).bind fun _ ↦ respects_pure _).bind fun _ ↦
    (respects_require _ _).bind fun _ ↦ onBlock_respects block _

theorem assign_respects (outer : Outer) (block : Nat) (ident : String) (value : Value) :
    Respects Frame.Alike (assign outer block ident value) := by
  intro fr fr' h
  cases hlocal : fr.locals ident with
  | some b =>
    rw [assign_apply_of_some hlocal, assign_apply_of_some (h.locals ▸ hlocal)]
    exact store_respects block ident value b fr fr' h
  | none =>
    rw [assign_apply_of_none hlocal, assign_apply_of_none (h.locals ▸ hlocal), h.slots]
    have hblocks : fr.function.blocks ≠ [] ↔ fr'.function.blocks ≠ [] := by
      rw [← List.length_pos_iff, ← List.length_pos_iff, ← Frame.count, h.count]
    simp only [hblocks]
    split
    · split
      · split
        · exact store_respects block ident value _ _ _ (h.declare ident value.ty)
        · exact ⟨rfl, h⟩
      · exact ⟨rfl, h⟩
    · exact ⟨rfl, h⟩

theorem requireOpen_respects (block : Nat) : Respects Frame.Alike (requireOpen block) :=
  respects_bind_state (fun fr fr' h ↦ by rw [h.isTerminated, h.signature])
    fun _ ↦ respects_require _ _

theorem returnValue_respects (outer : Outer) (block : Nat) (value : Value) :
    Respects Frame.Alike (returnValue outer block value) :=
  respects_bind_state (fun fr fr' h ↦ by rw [h.signature])
    fun _ ↦ (respects_require _ _).bind fun _ ↦ onBlock_respects block _

/-! ## Statements -/

mutual

theorem stmt_respects (outer : Outer) : ∀ s block, Respects Frame.Alike (stmt outer s block)
  | .assign ident value, block => by
    rw [stmt]
    exact (requireOpen_respects block).bind fun _ ↦ (within_respects outer block _).bind fun v ↦
      (assign_respects outer block ident v).bind fun _ ↦ respects_pure _
  | .ret value, block => by
    rw [stmt]
    exact (requireOpen_respects block).bind fun _ ↦ (within_respects outer block _).bind fun v ↦
      (returnValue_respects outer block v).bind fun _ ↦ respects_pure _
  | .ifThen cond body, block => by
    rw [stmt]
    exact (requireOpen_respects block).bind fun _ ↦ (within_respects outer block _).bind fun c ↦
      (childBlock_respects block .ifTrue).bind fun ifTrue ↦
      (childBlock_respects block .ifAfter).bind fun after ↦
      (onBlock_respects block _).bind fun _ ↦ (stmts_respects outer body ifTrue).bind fun bodyEnd ↦
      (close_respects bodyEnd after).bind fun _ ↦ respects_pure _
  | .ifElse cond body otherwise, block => by
    rw [stmt]
    exact (requireOpen_respects block).bind fun _ ↦ (within_respects outer block _).bind fun c ↦
      (childBlock_respects block .ifTrue).bind fun ifTrue ↦
      (childBlock_respects block .ifFalse).bind fun ifFalse ↦
      (childBlock_respects block .ifAfter).bind fun after ↦
      (onBlock_respects block _).bind fun _ ↦ (stmts_respects outer body ifTrue).bind fun bodyEnd ↦
      (close_respects bodyEnd after).bind fun _ ↦
      (stmts_respects outer otherwise ifFalse).bind fun otherwiseEnd ↦
      (close_respects otherwiseEnd after).bind fun _ ↦ respects_pure _
  | .loop cond body, block => by
    rw [stmt]
    exact (requireOpen_respects block).bind fun _ ↦
      (childBlock_respects block .whileTest).bind fun test ↦
      (childBlock_respects block .whileLoop).bind fun loop ↦
      (childBlock_respects block .whileAfter).bind fun after ↦
      (onBlock_respects block _).bind fun _ ↦ (within_respects outer test _).bind fun c ↦
      (onBlock_respects test _).bind fun _ ↦ (stmts_respects outer body loop).bind fun bodyEnd ↦
      (close_respects bodyEnd test).bind fun _ ↦ respects_pure _
  | .eval value, block => by
    rw [stmt.eq_def]
    refine (requireOpen_respects block).bind fun _ ↦ ?_
    cases value with
    | call | number | text | name | binary =>
      exact (within_respects outer block _).bind fun _ ↦ respects_pure _
termination_by structural s => s

theorem stmts_respects (outer : Outer) :
    ∀ ss block, Respects Frame.Alike (stmts outer ss block)
  | [], block => respects_pure _
  | s :: rest, block => by
    rw [stmts]
    exact (stmt_respects outer s block).bind fun next ↦ stmts_respects outer rest next
termination_by structural ss => ss

end

/-! ## Bodies -/

theorem bindParams_respects (outer : Outer) (block : Nat) (ps : List (String × Value)) :
    Respects Frame.Alike (bindParams outer block ps) := by
  induction ps with
  | nil => exact respects_pure _
  | cons p rest ih => exact (assign_respects outer block p.1 p.2).bind fun _ ↦ ih

theorem finish_respects (head : Prototype) (block : Nat) :
    Respects Frame.Alike (finish head block) := by
  refine respects_bind_state (fun fr fr' h ↦ by rw [h.isTerminated, h.isDead]) fun fr ↦ ?_
  split
  · exact respects_pure _
  · split
    · exact onBlock_respects block _
    · exact (respects_require _ _).bind fun _ ↦ onBlock_respects block _

theorem body_respects (head : Prototype) (ss : List Stmt) (outer : Outer) :
    Respects Frame.Alike (body head ss outer) := by
  intro fr fr' h
  have hentered := h.enter head
  have hvalues := hentered.same (g := fun fr ↦ fr.function.paramValues)
    fun fr ↦ fr.function.paramValues_unnamed
  rw [body_apply, body_apply, Function.bindings, Function.bindings, hvalues, h.count]
  exact ((bindParams_respects outer _ _).bind fun _ ↦ (stmts_respects outer ss _).bind fun last ↦
    (finish_respects head last).bind fun _ s s' h ↦ ⟨rfl, h.leave⟩) _ _ hentered

end Lowering

/-! ## Declarations -/

/-- Nothing is repeated if the list has no duplicates. -/
theorem firstRepeated?_eq_none_iff {seen xs : List String} :
    firstRepeated? seen xs = none ↔ xs.Nodup ∧ ∀ x ∈ xs, x ∉ seen := by
  induction xs generalizing seen with
  | nil => simp [firstRepeated?]
  | cons x xs ih =>
    rw [firstRepeated?, List.nodup_cons, List.forall_mem_cons]
    split
    · next h => simp [h]
    · next h =>
      rw [ih]
      simp only [List.mem_cons, not_or]
      grind

theorem modify_concat_length {α : Type} (xs : List α) (x : α) (f : α → α) :
    (xs ++ [x]).modify xs.length f = xs ++ [f x] := by
  induction xs with
  | nil => rfl
  | cons y xs ih => simp [ih]

namespace Context

/-- The context without the names of parameters and blocks of one function. -/
def unnamed (c : Context) (id : Nat) : Context :=
  { c with functions := c.functions.modify id Function.unnamed }

/-- The frame of the function that the head declares. -/
def declaredFrame (c : Context) (head : Prototype) : Frame :=
  (c.declare head).frame c.functions.length
    (Function.declared head (c.symbols.names.add "." head.ident).1)

variable {c : Context} {head other : Prototype}

/-- What remains without names of a function if it is lowered when it has been declared last. -/
theorem unnamed_withFrame_declare (c : Context) (head : Prototype) (fr : Frame) :
    ((c.declare head).withFrame c.functions.length fr).unnamed c.functions.length =
      { functions := c.functions ++ [fr.unnamed.function]
        symbols := fr.unnamed.symbols
        scopes := c.scopes.replace (.function c.functions.length) fr.unnamed.locals } := by
  rw [unnamed, withFrame, declare, List.set_append_right _ _ (Nat.le_refl _), Nat.sub_self,
    List.set_cons_zero, modify_concat_length]
  rfl

section

variable (sameIdent : other.ident = head.ident) (sameRet : other.ret = head.ret)
  (sameParams : other.params.map Param.ty = head.params.map Param.ty)

include sameIdent sameRet sameParams

/-- The names of parameters cannot be seen from another function. -/
theorem outer_declare_eq : (c.declare other).outer = (c.declare head).outer := by
  rw [outer, outer, signatures_declare, signatures_declare, sameIdent, sameRet, sameParams]
  rfl

theorem alike_declaredFrame : (c.declaredFrame other).Alike (c.declaredFrame head) := by
  rw [Frame.Alike, Frame.unnamed, Frame.unnamed, declaredFrame, declaredFrame, frame, frame,
    declare, declare, sameIdent, Function.unnamed_declared sameIdent sameRet sameParams]

end

end Context

namespace Lowering

variable {c c₁ : Context} {head other : Prototype} {id : Nat}

/-- A head whose parameters have different names is accepted if it agrees with what is declared. -/
theorem declare_of_declares (distinct : (head.params.map Param.ident).Nodup)
    (h : Declares c head id c₁) : declare head c = (.ok id, c₁) := by
  have hrepeated : firstRepeated? [] (head.params.map Param.ident) = none :=
    firstRepeated?_eq_none_iff.mpr ⟨distinct, fun _ _ ↦ List.not_mem_nil⟩
  rw [declare, hrepeated]
  cases h with
  | first unknown =>
    simp only [bind_state_apply, unknown]
    rfl
  | @again id f known hf agrees =>
    have hsignature : c.signatures[id]? = some f.signature := by
      rw [Context.signatures, List.getElem?_map, hf, Option.map_some]
    have hagrees : f.signature.params = head.params.map Param.ty ∧ f.signature.ret = head.ret :=
      ⟨agrees.params, agrees.ret⟩
    simp only [bind_state_apply, known, bind_require_apply, hsignature, Option.any_some, hagrees]
    rfl

/-- The definition of the function that was declared last. -/
theorem decl_of_declare (ss : List Stmt)
    (hok : declare head c₁ = (.ok c.functions.length, c.declare other)) :
    decl (.function head ss) c₁ =
      ((body head ss (c.declare other).outer (c.declaredFrame other)).1,
        (c.declare other).withFrame c.functions.length
          (body head ss (c.declare other).outer (c.declaredFrame other)).2) :=
  decl_of_blocks_eq_nil hok List.getElem?_concat_length rfl

/-- A forward declaration is transparent. In any module in which a function has no declaration yet,
a declaration with the same types is accepted, whatever names it gives to the parameters and in
whatever order, and the definition behind it does what it does alone: it is accepted or refused for
the same cause, and it leaves the same module, up to the names of the parameters and blocks of this
function. -/
theorem forward_declaration_transparent (ss : List Stmt)
    (unknown : c.functionId? head.ident = none)
    (distinct : (head.params.map Param.ident).Nodup)
    (otherDistinct : (other.params.map Param.ident).Nodup)
    (sameIdent : other.ident = head.ident) (sameRet : other.ret = head.ret)
    (sameParams : other.params.map Param.ty = head.params.map Param.ty) :
    let alone := decl (.function head ss) c
    let forward := decl (.external other) c
    let behind := decl (.function head ss) forward.2
    forward.1 = .ok () ∧ behind.1 = alone.1 ∧
      behind.2.unnamed c.functions.length = alone.2.unnamed c.functions.length := by
  intro alone forward behind
  have hother : Declares c other c.functions.length (c.declare other) :=
    .first (sameIdent ▸ unknown)
  obtain ⟨f, hf, hmatches⟩ := hother.function
  have hagain : Declares (c.declare other) head c.functions.length (c.declare other) :=
    .again (sameIdent ▸ hother.functionId?) hf
      ⟨hmatches.ident.trans sameIdent, hmatches.params.trans sameParams,
        hmatches.ret.trans sameRet⟩
  have hforward : forward = (.ok (), c.declare other) := by
    change (declare other >>= fun _ ↦ pure ()) c = _
    rw [bind_apply, declare_of_declares otherDistinct hother]
    rfl
  -- both definitions lower the body in surroundings that are the same but for names
  obtain ⟨hresult, hframes⟩ := body_respects head ss (c.declare head).outer _ _
    (Context.alike_declaredFrame sameIdent sameRet sameParams)
  have halone := decl_of_declare ss (declare_of_declares distinct (.first unknown))
  have hbehind := decl_of_declare ss (declare_of_declares distinct hagain)
  rw [Context.outer_declare_eq sameIdent sameRet sameParams] at hbehind
  refine ⟨congrArg Prod.fst hforward, ?_, ?_⟩
  · change (decl (.function head ss) forward.2).1 = (decl (.function head ss) c).1
    rw [hforward, hbehind, halone, hresult]
  · change (decl (.function head ss) forward.2).2.unnamed _ =
      (decl (.function head ss) c).2.unnamed _
    rw [hforward, hbehind, halone, Context.unnamed_withFrame_declare,
      Context.unnamed_withFrame_declare, hframes]

/-- A definition takes the names of the declaration in the other order. The first name that it gives
is still in use when its turn comes, so that the parameter gets a new one, and nothing else differs:
each parameter is stored under the name that the definition has for it. -/
theorem forward_declaration_transparent_swapped :
    let c := Context.after [.external ⟨.void, "puts", [⟨.string, "s"⟩]⟩]
    let head : Prototype := ⟨.double, "f", [⟨.double, "a"⟩, ⟨.double, "b"⟩]⟩
    let ss := [.ifThen (.name "a") [.eval (.call "puts" [.text "a"])], .ret (.name "b")]
    let alone := decl (.function head ss) c
    let behind := decl (.function head ss)
      (decl (.external ⟨.double, "f", [⟨.double, "b"⟩, ⟨.double, "a"⟩]⟩) c).2
    alone.1 = .ok () ∧ behind.1 = .ok () ∧ behind.2.unnamed 1 = alone.2.unnamed 1 ∧
      (alone.2.functions.map fun f ↦ f.params.map Param.ident) = [["s"], ["a", "b"]] ∧
      (behind.2.functions.map fun f ↦ f.params.map Param.ident) = [["s"], ["a1", "b"]] := by
  intro c head ss alone behind
  have halone : alone.1 = .ok () := eq_ok_of_isOk (by decide +kernel)
  obtain ⟨-, hresult, hmodules⟩ := @forward_declaration_transparent c head
    ⟨.double, "f", [⟨.double, "b"⟩, ⟨.double, "a"⟩]⟩ ss (by decide +kernel) (by decide)
    (by decide) rfl rfl rfl
  exact ⟨halone, hresult.trans halone, hmodules, by decide +kernel, by decide +kernel⟩

end Lowering

end BlockCompiler
