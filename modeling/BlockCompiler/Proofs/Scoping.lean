import BlockCompiler.Proofs.Declaration

/-!
# Definitions precede uses

Every operand of an instruction is a constant, a string constant of the module, a parameter or a
slot of the function, or the result of an instruction that stands earlier in the same block. This
holds of every module that declarations can lead to, including the functions that were left half
built when their bodies were refused.

## Results and places

An operand refers to an instruction by its place. What keeps such an operand meaningful is that the
code in front of it stays as it is: between the lowering of an operand and its use, other operands
are lowered, and some of what they append may be taken back. `Moves Tape.Extends` says that no step
takes back what was there before it, and `Triple.frame` carries an operand over such a step.
-/

namespace BlockCompiler

/-! ## What an instruction refers to -/

namespace Instr

/-- The kind of the result, if there is one. -/
def resultKind? : Instr → Option Kind
  | load address _ => some address.pointee
  | arith _ _ _ | promote _ => some .double
  | compare _ _ _ | test _ => some .bit
  | call _ ty _ => if ty.isStorable then some ty.kind else none
  | store _ _ | ret _ | jump _ | branch _ _ _ | unreachable => none

/-- The operands, blocks apart. -/
def operands : Instr → List Value
  | load address _ => [address]
  | store value address => [value, address]
  | arith _ lhs rhs | compare _ lhs rhs => [lhs, rhs]
  | test value | promote value => [value]
  | call _ _ args => args
  | ret value => value.toList
  | branch cond _ _ => [cond]
  | jump _ | unreachable => []

/-- The address that is read or written. -/
def address? : Instr → Option Value
  | load address _ | store _ address => some address
  | _ => none

def callee? : Instr → Option String
  | call symbol _ _ => some symbol
  | _ => none

end Instr

/-- What instructions of a function may refer to besides each other. -/
structure Surroundings where
  params : List Ty
  slots : List Slot
  texts : List TextConstant
  signatures : List Signature

/-- More slots, string constants and functions. -/
structure Surroundings.Extends (w w' : Surroundings) : Prop where
  params : w'.params = w.params
  slots : w.slots <+: w'.slots
  texts : w.texts <+: w'.texts
  signatures : w.signatures ⊆ w'.signatures

/-- The operand is a constant, or it is there: behind the instructions of `code`, it may refer to
one of them. -/
def Value.Defined (w : Surroundings) (code : List Instr) : Value → Prop
  | number _ | bit _ => True
  | text index => index < w.texts.length
  | param index kind => w.params[index]?.map Ty.kind = some kind
  | slot index ty => w.slots[index]?.map Slot.ty = some ty
  | temp index kind => code[index]?.bind Instr.resultKind? = some kind

/-- The instruction may stand behind the instructions of `code`. -/
structure Instr.Scoped (w : Surroundings) (code : List Instr) (i : Instr) : Prop where
  operands : ∀ v ∈ i.operands, v.Defined w code
  address : ∀ v, i.address? = some v → ∃ index ty, v = .slot index ty
  callee : ∀ symbol, i.callee? = some symbol → ∃ s ∈ w.signatures, s.symbol = symbol

/-- Every instruction of a block may stand behind those in front of it. -/
def ScopedCode (w : Surroundings) (code : List Instr) : Prop :=
  ∀ (k : Nat) (i : Instr), code[k]? = some i → i.Scoped w (code.take k)

/-- What the instructions of a function may refer to besides each other. -/
def Context.surroundings (c : Context) (f : Function) : Surroundings where
  params := f.params.map Param.ty
  slots := f.slots
  texts := c.symbols.texts
  signatures := c.signatures

/-- Every operand of every instruction is defined where it is used. -/
def Context.Scoped (c : Context) : Prop :=
  ∀ f ∈ c.functions, ∀ block ∈ f.blocks, ScopedCode (c.surroundings f) block.code

/-! ## More surroundings, and more code -/

section

variable {w w' : Surroundings} {code code' : List Instr} {i : Instr} {v : Value}

theorem Surroundings.Extends.refl (w : Surroundings) : w.Extends w :=
  ⟨rfl, List.prefix_refl _, List.prefix_refl _, List.Subset.refl _⟩

theorem Value.Defined.mono (h : v.Defined w code) (hw : w.Extends w') (hcode : code <+: code') :
    v.Defined w' code' := by
  cases v with
  | number | bit => trivial
  | text index => exact Nat.lt_of_lt_of_le h hw.texts.length_le
  | param index kind =>
    rw [Defined, hw.params]
    exact h
  | slot index ty =>
    obtain ⟨s, hs, hty⟩ := Option.map_eq_some_iff.mp h
    rw [Defined, getElem?_of_prefix hw.slots hs, Option.map_some, hty]
  | temp index kind =>
    obtain ⟨i, hi, hkind⟩ := Option.bind_eq_some_iff.mp h
    rw [Defined, getElem?_of_prefix hcode hi, Option.bind_some, hkind]

theorem Instr.Scoped.mono (h : i.Scoped w code) (hw : w.Extends w') : i.Scoped w' code where
  operands v hv := (h.operands v hv).mono hw (List.prefix_refl _)
  address := h.address
  callee symbol hsymbol := by
    obtain ⟨s, hs, rfl⟩ := h.callee symbol hsymbol
    exact ⟨s, hw.signatures hs, rfl⟩

theorem scopedCode_nil : ScopedCode w [] := fun k i h ↦ by simp at h

theorem ScopedCode.mono (h : ScopedCode w code) (hw : w.Extends w') : ScopedCode w' code :=
  fun k i hi ↦ (h k i hi).mono hw

/-- An instruction is appended. -/
theorem ScopedCode.concat (h : ScopedCode w code) (hi : i.Scoped w code) :
    ScopedCode w (code ++ [i]) := by
  intro k j hj
  rcases Nat.lt_or_ge k code.length with hlt | hge
  · rw [List.getElem?_append_left hlt] at hj
    rw [List.take_append_of_le_length (Nat.le_of_lt hlt)]
    exact h k j hj
  · have hk : k = code.length := by
      have := (List.getElem?_eq_some_iff.mp hj).1
      rw [List.length_append, List.length_singleton] at this
      omega
    subst hk
    rw [List.getElem?_concat_length, Option.some.injEq] at hj
    subst hj
    rw [List.take_left]
    exact hi

end

/-! ## Expressions -/

/-- The same surroundings with the string constants of a module. -/
def Surroundings.on (w : Surroundings) (symbols : Symbols) : Surroundings :=
  { w with texts := symbols.texts }

theorem Surroundings.Extends.on {w : Surroundings} {s s' : Symbols} (h : s.Extends s') :
    (w.on s).Extends (w.on s') :=
  ⟨rfl, List.prefix_refl _, h.texts, List.Subset.refl _⟩

/-- A local is bound to its slot, and a global to a number. -/
structure Env.Scoped (w : Surroundings) (env : Env) : Prop where
  signatures : env.signatures ⊆ w.signatures
  globals : ∀ ident b, env.globals ident = some b → ∃ x, b.value = .number x
  locals : ∀ ident b, env.locals ident = some b →
    ∃ index, b.value = .slot index b.ty ∧ w.slots[index]?.map Slot.ty = some b.ty

/-- The code of the block is scoped, and the given values may be used behind it. -/
structure Tape.Holds (w : Surroundings) (vs : List Value) (t : Tape) : Prop where
  code : ScopedCode (w.on t.symbols) t.code
  values : ∀ v ∈ vs, v.Defined (w.on t.symbols) t.code

section

variable {w : Surroundings} {vs vs' : List Value} {t t' : Tape}

theorem Tape.Holds.weaken (h : t.Holds w vs) (hsubset : vs' ⊆ vs) : t.Holds w vs' :=
  ⟨h.code, fun v hv ↦ h.values v (hsubset hv)⟩

theorem Tape.Holds.cons {v : Value} (h : t.Holds w vs) (hv : v.Defined (w.on t.symbols) t.code) :
    t.Holds w (v :: vs) :=
  ⟨h.code, fun u hu ↦ by
    rcases List.mem_cons.mp hu with rfl | hu
    · exact hv
    · exact h.values u hu⟩

/-- An instruction whose operands are at hand is appended. -/
theorem Tape.Holds.concat {i : Instr} (h : t.Holds w vs) (hoperands : i.operands ⊆ vs)
    (haddress : ∀ v, i.address? = some v → ∃ index ty, v = .slot index ty)
    (hcallee : ∀ symbol, i.callee? = some symbol → ∃ s ∈ w.signatures, s.symbol = symbol) :
    Tape.Holds w vs { t with code := t.code ++ [i] } :=
  ⟨h.code.concat ⟨fun v hv ↦ h.values v (hoperands hv), haddress, hcallee⟩,
    fun v hv ↦ (h.values v hv).mono (.refl _) (List.prefix_append _ _)⟩

end

namespace Lowering

variable {w : Surroundings} {env : Env} {vs : List Value}

/-- Besides the values at hand, the step yields values that may be used as well. -/
abbrev Yields (w : Surroundings) (vs : List Value) {α : Type} (m : Lowering Tape α)
    (values : α → List Value) : Prop :=
  Triple (Tape.Holds w vs) m (fun a t ↦ t.Holds w (values a ++ vs)) (Tape.Holds w [])

theorem emit_yields {i : Instr} {kind : Kind} (hoperands : i.operands ⊆ vs)
    (hkind : i.resultKind? = some kind)
    (haddress : ∀ v, i.address? = some v → ∃ index ty, v = .slot index ty)
    (hcallee : ∀ symbol, i.callee? = some symbol → ∃ s ∈ w.signatures, s.symbol = symbol) :
    Yields w vs (emit i kind) fun v ↦ [v] := by
  intro t ht
  refine (ht.concat hoperands haddress hcallee).cons ?_
  rw [Value.Defined, List.getElem?_concat_length, Option.bind_some, hkind]

theorem pure_yields {v : Value} (h : ∀ w code, v.Defined w code) :
    Yields w vs (pure v) fun v ↦ [v] := fun _ ht ↦ ht.cons (h _ _)

theorem fail_yields {α : Type} (e : LoweringError) (values : α → List Value) :
    Yields w vs (fail e) values := fun _ ht ↦ ht.weaken (List.nil_subset _)

theorem require_yields {α : Type} {cond : Prop} [Decidable cond] {e : LoweringError}
    {f : Unit → Lowering Tape α} {values : α → List Value} (h : cond → Yields w vs (f ()) values) :
    Yields w vs (require cond e >>= f) values :=
  .bind_require (fun _ ht ↦ ht.weaken (List.nil_subset _)) h

theorem text_yields (contents : String) : Yields w vs (text contents) fun v ↦ [v] := by
  intro t ht
  have hextends : t.symbols.Extends (t.symbols.addText contents).2 := .addText _ _
  refine Tape.Holds.cons ⟨ht.code.mono (.on hextends), fun v hv ↦
    (ht.values v hv).mono (.on hextends) (List.prefix_refl _)⟩ ?_
  change t.symbols.texts.length < (t.symbols.texts ++ [_]).length
  rw [List.length_append, List.length_singleton]
  exact Nat.lt_succ_self _

theorem arith_yields (op : Arith) {lhs rhs : Value} (h : [lhs, rhs] ⊆ vs) :
    Yields w vs (arith op lhs rhs) fun v ↦ [v] := by
  unfold arith
  split
  · exact pure_yields fun _ _ ↦ trivial
  · exact emit_yields h rfl nofun nofun

theorem compare_yields (relation : Comparison) {lhs rhs : Value} (h : [lhs, rhs] ⊆ vs) :
    Yields w vs (compare relation lhs rhs) fun v ↦ [v] := by
  unfold compare
  split
  · exact pure_yields fun _ _ ↦ trivial
  · exact emit_yields h rfl nofun nofun

theorem test_yields {v : Value} (h : v ∈ vs) : Yields w vs (test v) fun v ↦ [v] := by
  unfold test
  split
  · exact pure_yields fun _ _ ↦ trivial
  · exact emit_yields (List.cons_subset.mpr ⟨h, List.nil_subset _⟩) rfl nofun nofun

theorem promote_yields {v : Value} (h : v ∈ vs) : Yields w vs (promote v) fun v ↦ [v] := by
  unfold promote
  split
  · exact pure_yields fun _ _ ↦ trivial
  · exact emit_yields (List.cons_subset.mpr ⟨h, List.nil_subset _⟩) rfl nofun nofun

/-- The value of a second step, where the one of the first is not at hand any longer. -/
theorem Triple.bind_yields {α : Type} {m : Lowering Tape Value} {f : Value → Lowering Tape α}
    {values : α → List Value} (hm : Yields w vs m fun v ↦ [v])
    (hf : ∀ v, Yields w (v :: vs) (f v) values) : Yields w vs (m >>= f) values :=
  hm.bind fun v ↦ (hf v).weaken (fun _ h ↦ h) fun _ _ h ↦ h.weaken (by
    intro u hu
    simp only [List.mem_append, List.mem_cons] at hu ⊢
    exact hu.imp_right .inr)

theorem operate_yields (op : Operator) {lhs rhs : Value} (h : [lhs, rhs] ⊆ vs) :
    Yields w vs (operate op lhs rhs) fun v ↦ [v] := by
  cases op with
  | add | sub | mul => exact arith_yields _ h
  | less | greater | equal | notEqual =>
    exact (compare_yields _ h).bind_yields fun v ↦ promote_yields List.mem_cons_self

theorem combine_yields (op : Operator) {lhs rhs : Value} (h : [lhs, rhs] ⊆ vs) :
    Yields w vs (combine op lhs rhs) fun v ↦ [v] :=
  .combine (fun _ ht ↦ ht.weaken (List.nil_subset _)) fun _ _ ↦ operate_yields op h

/-- A refused step takes its instructions back, and its string constants stay. -/
theorem rewinding_yields {α : Type} {m : Lowering Tape α} {values : α → List Value}
    (h : Yields w vs m values) (hm : Moves Tape.Extends m) : Yields w vs (rewinding m) values :=
  h.rewinding hm fun _ _ ht hsymbols ↦
    ⟨ht.code.mono (.on hsymbols), fun _ hv ↦ absurd hv List.not_mem_nil⟩

theorem load_yields {index : Nat} {ty : Ty} (ident : String)
    (h : w.slots[index]?.map Slot.ty = some ty) :
    Yields w vs (emit (.load (.slot index ty) ident) ty.kind) fun v ↦ [v] := by
  intro t ht
  have hslot : t.Holds w (.slot index ty :: vs) := ht.cons h
  have hload := hslot.concat (i := .load (.slot index ty) ident) (by simp [Instr.operands])
    (by rintro _ ⟨⟩; exact ⟨index, ty, rfl⟩) nofun
  refine (hload.weaken (List.subset_cons_self _ _)).cons ?_
  rw [Value.Defined, List.getElem?_concat_length, Option.bind_some]
  rfl

theorem readName_yields (henv : env.Scoped w) (ident : String) :
    Yields w vs (readName env ident) fun v ↦ [v] := by
  unfold readName
  split
  · next b hb =>
    obtain ⟨index, hslot, hty⟩ := henv.locals ident b hb
    have hload : Yields w vs (do
        require b.ty.isStorable (.noStorageType ident)
        emit (.load (.slot index b.ty) ident) b.ty.kind) fun v ↦ [v] :=
      require_yields fun _ ↦ load_yields ident hty
    intro t ht
    rw [bind_apply, address_apply, hslot]
    exact hload t ht
  · split
    · next b hb =>
      obtain ⟨x, hx⟩ := henv.globals ident b hb
      exact pure_yields fun _ _ ↦ by rw [hx]; trivial
    · exact fail_yields _ _

/-- The result of a call is at hand if the function returns one. -/
theorem emit_call_yields {callee : Signature} {values : List Value}
    (hcallee : callee ∈ w.signatures) (hvalues : values ⊆ vs) :
    Yields w vs (do
      let result ← emit (.call callee.symbol callee.ret values) callee.ret.kind
      pure (if callee.ret.isStorable then some result else none)) Option.toList := by
  intro t ht
  have hcall := ht.concat (i := .call callee.symbol callee.ret values) hvalues nofun (by
    rintro _ ⟨⟩
    exact ⟨callee, hcallee, rfl⟩)
  change Tape.Holds w (Option.toList (if callee.ret.isStorable then
    some (.temp t.code.length callee.ret.kind) else none) ++ vs) _
  split
  · next hret =>
    refine hcall.cons ?_
    rw [Value.Defined, List.getElem?_concat_length, Option.bind_some, Instr.resultKind?,
      if_pos hret]
  · exact hcall

theorem callWith_yields (henv : env.Scoped w) (ident : String) (count : Nat)
    {args : List Ty → Lowering Tape (List Value)}
    (h : ∀ tys, Yields w vs (args tys) fun values ↦ values)
    (hm : ∀ tys, Moves Tape.Extends (args tys)) :
    Yields w vs (callWith env ident count args) Option.toList := by
  unfold callWith
  split
  · exact fail_yields _ _
  · next callee hcallee =>
    have hmem : callee ∈ w.signatures := henv.signatures (List.mem_of_find?_eq_some hcallee)
    refine require_yields fun _ ↦ Triple.bind (rewinding_yields (h _) (hm _)) fun values ↦ ?_
    refine (emit_call_yields hmem (List.subset_append_left values vs)).weaken (fun _ h ↦ h)
      fun result _ h ↦ h.weaken fun v hv ↦ ?_
    rw [List.mem_append] at hv ⊢
    exact hv.imp_right (List.mem_append_right values)

mutual

theorem expr_yields (henv : env.Scoped w) : ∀ e vs, Yields w vs (expr env e) fun v ↦ [v]
  | .number x, _ => pure_yields fun _ _ ↦ trivial
  | .text contents, _ => text_yields contents
  | .name ident, _ => readName_yields henv ident
  | .call ident args, vs => by
    rw [expr]
    refine Triple.bind (callWith_yields henv ident args.length
      (fun tys ↦ arguments_yields henv ident args tys vs)
      fun tys ↦ arguments_moves env ident args tys) fun result ↦ ?_
    cases result with
    | none => exact .of_fail fun _ h ↦ h.weaken (List.nil_subset _)
    | some value => exact .of_pure fun _ h ↦ h
  | .binary op lhs rhs, vs => by
    rw [expr]
    refine rewinding_yields ?_ ((expr_moves env lhs).bind fun l ↦ (expr_moves env rhs).bind fun r ↦
      combine_moves op l r)
    exact (expr_yields henv lhs vs).bind_yields fun l ↦
      (expr_yields henv rhs (l :: vs)).bind_yields fun r ↦
        combine_yields op (by simp)
termination_by structural e => e

theorem arguments_yields (henv : env.Scoped w) (ident : String) :
    ∀ es tys vs, Yields w vs (arguments env ident es tys) fun values ↦ values
  | [], _, _ => by
    rw [arguments_nil]
    exact .of_pure fun _ h ↦ h
  | _ :: _, [], _ => by
    rw [arguments_cons_nil]
    exact .of_pure fun _ h ↦ h
  | e :: es, ty :: tys, vs => by
    rw [arguments]
    refine Triple.bind (expr_yields henv e vs) fun value ↦ .bind_require
      (fun _ h ↦ h.weaken (List.nil_subset _)) fun _ ↦
      Triple.bind (arguments_yields henv ident es tys (value :: vs)) fun values ↦
        .of_pure fun _ h ↦ h.weaken fun v hv ↦ ?_
    simp only [List.cons_append, List.mem_append, List.mem_cons] at hv ⊢
    rcases hv with hv | hv | hv
    · exact .inr (.inl hv)
    · exact .inl hv
    · exact .inr (.inr hv)
termination_by structural es => es

end

theorem call_yields (henv : env.Scoped w) (ident : String) (args : List Expr) :
    Yields w vs (call env ident args) Option.toList :=
  callWith_yields henv ident args.length (fun tys ↦ arguments_yields henv ident args tys vs)
    fun tys ↦ arguments_moves env ident args tys

theorem condition_yields (henv : env.Scoped w) (cond : Expr) :
    Yields w vs (condition env cond) fun v ↦ [v] :=
  (expr_yields henv cond vs).bind_yields fun _ ↦ require_yields fun _ ↦
    test_yields List.mem_cons_self

end Lowering

/-! ## Frames -/

namespace Frame

/-- What the instructions of a function under construction may refer to besides each other. -/
def surroundings (fr : Frame) (outer : Outer) : Surroundings where
  params := fr.function.params.map Param.ty
  slots := fr.function.slots
  texts := fr.symbols.texts
  signatures := outer.signatures

/-- Every block is scoped, and the names are bound to what is there. -/
structure Scoped (outer : Outer) (fr : Frame) : Prop where
  code : ∀ b, ScopedCode (fr.surroundings outer) (fr.code b)
  env : (fr.env outer).Scoped (fr.surroundings outer)

/-- The given values may be used at the end of the block. -/
structure Holds (outer : Outer) (block : Nat) (vs : List Value) (fr : Frame) : Prop where
  isScoped : fr.Scoped outer
  lt : block < fr.count
  values : ∀ v ∈ vs, v.Defined (fr.surroundings outer) (fr.code block)

variable {outer : Outer} {block : Nat} {vs : List Value} {fr fr' : Frame}

theorem Extends.surroundings (h : fr.Extends fr') :
    (fr.surroundings outer).Extends (fr'.surroundings outer) :=
  ⟨h.params, h.slots, h.symbols.texts, List.Subset.refl _⟩

/-- Where the locals are the same, only the code that is new has to be looked at. -/
theorem Scoped.of_extends (h : fr.Scoped outer) (hextends : fr.Extends fr')
    (hlocals : fr'.locals = fr.locals)
    (hcode : ∀ b, fr'.code b ≠ fr.code b → ScopedCode (fr'.surroundings outer) (fr'.code b)) :
    fr'.Scoped outer := by
  refine ⟨fun b ↦ ?_, h.env.signatures, h.env.globals, fun ident b hb ↦ ?_⟩
  · by_cases heq : fr'.code b = fr.code b
    · rw [heq]
      exact (h.code b).mono hextends.surroundings
    · exact hcode b heq
  · change fr'.locals ident = some b at hb
    rw [hlocals] at hb
    obtain ⟨index, hslot, hty⟩ := h.env.locals ident b hb
    have hdefined : Value.Defined (fr.surroundings outer) [] (.slot index b.ty) := hty
    exact ⟨index, hslot, hdefined.mono hextends.surroundings (List.prefix_refl _)⟩

theorem Holds.mono (h : fr.Holds outer block vs) (hextends : fr.Extends fr')
    (hscoped : fr'.Scoped outer) : fr'.Holds outer block vs :=
  ⟨hscoped, Nat.lt_of_lt_of_le h.lt hextends.count_le, fun v hv ↦
    (h.values v hv).mono hextends.surroundings (hextends.code block)⟩

theorem Holds.cons {v : Value} (h : fr.Holds outer block vs)
    (hv : v.Defined (fr.surroundings outer) (fr.code block)) : fr.Holds outer block (v :: vs) :=
  ⟨h.isScoped, h.lt, fun u hu ↦ by
    rcases List.mem_cons.mp hu with rfl | hu
    · exact hv
    · exact h.values u hu⟩

theorem Scoped.holds (h : fr.Scoped outer) (hlt : block < fr.count) : fr.Holds outer block [] :=
  ⟨h, hlt, fun _ hv ↦ absurd hv List.not_mem_nil⟩

/-! ### Changes of a frame -/

theorem Scoped.tape (h : fr.Scoped outer) (block : Nat) :
    (fr.tape block).Holds (fr.surroundings outer) [] :=
  ⟨h.code block, fun _ hv ↦ absurd hv List.not_mem_nil⟩

theorem Scoped.withTape {t : Tape} (h : fr.Scoped outer) (hextends : (fr.tape block).Extends t)
    (ht : t.Holds (fr.surroundings outer) []) : (fr.withTape block t).Scoped outer := by
  refine h.of_extends (.withTape hextends) rfl fun b hne ↦ ?_
  by_cases hb : b = block
  · subst hb
    rcases Nat.lt_or_ge b fr.count with hlt | hge
    · rw [code_withTape hlt]
      exact ht.code
    · rw [code_of_le (by simpa using hge)]
      exact scopedCode_nil
  · exact absurd (code_withTape_of_ne hb) hne

theorem Holds.withTape {t : Tape} (h : fr.Holds outer block [])
    (hextends : (fr.tape block).Extends t) (ht : t.Holds (fr.surroundings outer) vs) :
    (fr.withTape block t).Holds outer block vs :=
  ⟨h.isScoped.withTape hextends (ht.weaken (List.nil_subset _)), by simpa using h.lt, by
    rw [code_withTape h.lt]
    exact ht.values⟩

theorem Holds.extend {i : Instr} (h : fr.Holds outer block vs) (hoperands : i.operands ⊆ vs)
    (haddress : ∀ v, i.address? = some v → ∃ index ty, v = .slot index ty)
    (hcallee : i.callee? = none) : (fr.extend block [i]).Holds outer block vs := by
  refine h.mono .extend (h.isScoped.of_extends .extend rfl fun b hne ↦ ?_)
  by_cases hb : b = block
  · subst hb
    rw [code_extend h.lt]
    exact (h.isScoped.code b).concat ⟨fun v hv ↦ h.values v (hoperands hv), haddress,
      fun symbol hsymbol ↦ absurd hsymbol (by simp [hcallee])⟩
  · exact absurd (code_extend_of_ne hb) hne

/-- A terminator has neither an address nor a callee. -/
theorem Holds.terminate {i : Instr} (h : fr.Holds outer block vs) (hoperands : i.operands ⊆ vs)
    (hterm : i.isTerminator = true) : (fr.extend block [i]).Holds outer block vs := by
  refine h.extend hoperands (fun v hv ↦ ?_) ?_
  · cases i <;> simp_all [Instr.address?, Instr.isTerminator]
  · cases i <;> simp_all [Instr.callee?, Instr.isTerminator]

theorem Holds.child {parent : Nat} {role : Role} (h : fr.Holds outer block vs) :
    (fr.child parent role).Holds outer block vs :=
  h.mono .child (h.isScoped.of_extends .child rfl fun b hne ↦ absurd (code_child b) hne)

theorem Holds.declare {ident : String} {ty : Ty} (h : fr.Holds outer block vs) :
    (fr.declare ident ty).Holds outer block vs := by
  refine h.mono .declare ⟨fun b ↦ (h.isScoped.code b).mono (Extends.surroundings .declare),
    h.isScoped.env.signatures, h.isScoped.env.globals, fun x b hb ↦ ?_⟩
  change (if x = ident then some _ else fr.locals x) = some b at hb
  split at hb
  · obtain rfl := Option.some.inj hb
    refine ⟨fr.function.slots.length, rfl, ?_⟩
    change ((fr.function.slots ++ [_])[_]?).map Slot.ty = _
    rw [List.getElem?_concat_length]
    rfl
  · obtain ⟨index, hslot, hty⟩ := h.isScoped.env.locals x b hb
    have hdefined : Value.Defined (fr.surroundings outer) [] (.slot index b.ty) := hty
    exact ⟨index, hslot, hdefined.mono (Extends.surroundings .declare) (List.prefix_refl _)⟩

theorem Holds.close {target : Nat} (h : fr.Holds outer block vs) :
    (fr.close block target).Scoped outer := by
  unfold Frame.close
  split
  · exact h.isScoped
  · split
    · exact (h.terminate (i := .unreachable) (List.nil_subset _) rfl).isScoped
    · exact (h.terminate (i := .jump target) (List.nil_subset _) rfl).isScoped

theorem Holds.fork {c : Value} (h : fr.Holds outer block [c]) :
    (fr.fork block c).Holds outer fr.count [] ∧ fr.count + 1 < (fr.fork block c).count := by
  have hchildren : ((fr.child block .ifTrue).child block .ifAfter).Holds outer block [c] :=
    h.child.child
  have hfork := hchildren.terminate (i := .branch c fr.count (fr.count + 1)) (List.Subset.refl _)
    rfl
  exact ⟨hfork.isScoped.holds (by rw [count_extend, count_child, count_child]; omega),
    by simp [Frame.fork]⟩

theorem Holds.forkElse {c : Value} (h : fr.Holds outer block [c]) :
    (fr.forkElse block c).Holds outer fr.count [] ∧ fr.count + 2 < (fr.forkElse block c).count := by
  have hchildren : (((fr.child block .ifTrue).child block .ifFalse).child block
      .ifAfter).Holds outer block [c] := h.child.child.child
  have hfork := hchildren.terminate (i := .branch c fr.count (fr.count + 1)) (List.Subset.refl _)
    rfl
  exact ⟨hfork.isScoped.holds (by simp; omega), by simp [Frame.forkElse]⟩

theorem Holds.enterLoop (h : fr.Holds outer block []) :
    (fr.enterLoop block).Holds outer fr.count [] ∧ fr.count + 2 < (fr.enterLoop block).count := by
  have hchildren : (((fr.child block .whileTest).child block .whileLoop).child block
      .whileAfter).Holds outer block [] := h.child.child.child
  have hjump := hchildren.terminate (i := .jump fr.count) (List.nil_subset _) rfl
  exact ⟨hjump.isScoped.holds (by simp; omega), by simp [Frame.enterLoop]⟩

end Frame

/-! ## Bodies -/

namespace Lowering

variable {outer : Outer} {block : Nat} {vs : List Value}

/-- A step at the end of a block that is left with the given values at hand. -/
theorem within_triple {α : Type} {m : Env → Lowering Tape α} {values : α → List Value}
    (hyields : ∀ {w env}, env.Scoped w → Yields w [] (m env) values)
    (hmoves : ∀ env, Moves Tape.Extends (m env)) :
    Triple (Frame.Holds outer block []) (within outer block m)
      (fun a fr ↦ fr.Holds outer block (values a)) (Frame.Scoped outer) := by
  intro fr h
  have hpost := hyields h.isScoped.env _ (h.isScoped.tape block)
  have hmove := hmoves (fr.env outer) (fr.tape block)
  rw [within_apply, onBlock_apply]
  generalize m (fr.env outer) (fr.tape block) = r at hpost hmove ⊢
  rcases r with ⟨_ | a, t⟩
  · exact h.isScoped.withTape hmove hpost
  · refine h.withTape hmove (hpost.weaken ?_)
    exact List.subset_append_left _ _

theorem store_triple {ident : String} {v : Value} {b : Binding}
    (hslot : ∃ index ty, b.value = .slot index ty) :
    Triple (fun fr ↦ fr.Holds outer block [b.value, v]) (store block ident v b)
      (fun _ fr ↦ fr.Holds outer block []) (Frame.Scoped outer) := by
  intro fr h
  obtain ⟨index, ty, hslot⟩ := hslot
  rw [store_apply, hslot]
  simp only [Value.kind, ↓reduceIte]
  split
  · have hstore := h.extend (i := .store v b.value) (by simp [Instr.operands])
      (by rintro _ ⟨⟩; exact ⟨index, ty, hslot⟩) rfl
    rw [hslot] at hstore
    exact hstore.isScoped.holds hstore.lt
  · exact h.isScoped

theorem assign_triple (outer : Outer) (block : Nat) (ident : String) (v : Value) :
    Triple (fun fr ↦ fr.Holds outer block [v]) (assign outer block ident v)
      (fun _ fr ↦ fr.Holds outer block []) (Frame.Scoped outer) := by
  intro fr h
  cases hlocal : fr.locals ident with
  | some b =>
    obtain ⟨index, hslot, hty⟩ := h.isScoped.env.locals ident b hlocal
    rw [assign_apply_of_some hlocal]
    exact store_triple ⟨index, b.ty, hslot⟩ fr (h.cons (by rw [hslot]; exact hty))
  | none =>
    rw [assign_apply_of_none hlocal]
    split
    · split
      · split
        · refine store_triple ⟨_, _, rfl⟩ _ (h.declare.cons ?_)
          change ((fr.function.slots ++ [_])[_]?).map Slot.ty = _
          rw [List.getElem?_concat_length]
          rfl
        · exact h.isScoped
      · exact h.isScoped
    · exact h.isScoped

theorem returnValue_triple {v : Value} :
    Triple (Frame.Holds outer block [v]) (returnValue outer block v)
      (fun _ fr ↦ fr.Holds outer block []) (Frame.Scoped outer) := by
  intro fr h
  rw [returnValue, bind_state_apply, bind_require_apply]
  split
  · have hret := h.terminate (i := .ret (some v)) (List.Subset.refl _) rfl
    exact hret.isScoped.holds hret.lt
  · exact h.isScoped

/-- Lowering is at the end of an existing block, and further blocks up to a number exist. -/
def At (outer : Outer) (block most : Nat) (fr : Frame) : Prop :=
  fr.Holds outer block [] ∧ most < fr.count

theorem requireOpen_bind_triple {α : Type} {P E : Frame → Prop} {Q : α → Frame → Prop}
    {f : Unit → Lowering Frame α} (hE : ∀ fr, P fr → E fr) (hf : Triple P (f ()) Q E) :
    Triple P (requireOpen block >>= f) Q E := by
  intro fr h
  rw [requireOpen, bind_assoc, bind_state_apply, bind_require_apply]
  split
  · exact hf fr h
  · exact hE fr h

/-- A body between the blocks of its statement is lowered from `start` on and closed at its end. -/
theorem body_triple {α : Type} {m : Lowering Frame Nat} {k : Lowering Frame α}
    {Q : α → Frame → Prop} {start most target : Nat}
    (h : Triple (Frame.Holds outer start []) m (fun next fr ↦ fr.Holds outer next [])
      (Frame.Scoped outer)) (hm : Moves Frame.Extends m)
    (hk : Triple (fun fr ↦ fr.Scoped outer ∧ most < fr.count) k Q (Frame.Scoped outer)) :
    Triple (At outer start most)
      (do
        let bodyEnd ← m
        close bodyEnd target
        k) Q (Frame.Scoped outer) := by
  have hframe := h.frame (F := fun fr ↦ most < fr.count) hm
    fun _ _ hextends hlt ↦ Nat.lt_of_lt_of_le hlt hextends.count_le
  refine hframe.bind fun bodyEnd fr hfr ↦ ?_
  rw [bind_apply, close_apply]
  exact hk _ ⟨hfr.1.close, Nat.lt_of_lt_of_le hfr.2 Frame.Extends.close.count_le⟩

/-- Where the blocks of a statement exist, lowering goes on in one of them. -/
theorem Triple.of_at {α : Type} {m : Lowering Frame α} {Q : α → Frame → Prop} {E : Frame → Prop}
    {next most : Nat} (h : Triple (At outer next most) m Q E) (hle : next ≤ most) :
    Triple (fun fr ↦ fr.Scoped outer ∧ most < fr.count) m Q E :=
  fun fr hfr ↦ h fr ⟨hfr.1.holds (Nat.lt_of_le_of_lt hle hfr.2), hfr.2⟩

theorem pure_triple {next most : Nat} (hle : next ≤ most) :
    Triple (fun fr ↦ fr.Scoped outer ∧ most < fr.count) (pure next)
      (fun next fr ↦ fr.Holds outer next []) (Frame.Scoped outer) :=
  fun _ hfr ↦ hfr.1.holds (Nat.lt_of_le_of_lt hle hfr.2)

/-- The branch behind the condition of a loop. -/
theorem turn_triple {c : Value} {n most : Nat} (hn : n + 1 ≤ most) :
    Triple (fun fr ↦ fr.Holds outer n [c] ∧ most < fr.count)
      (onBlock n (emitPlain (.branch c (n + 1) (n + 2))))
      (fun _ fr ↦ At outer (n + 1) most fr) (Frame.Scoped outer) := by
  intro fr h
  have hturn := h.1.terminate (i := .branch c (n + 1) (n + 2)) (List.Subset.refl _) rfl
  rw [onBlock_emitPlain]
  have hcount : most < (fr.extend n [.branch c (n + 1) (n + 2)]).count := by simpa using h.2
  exact ⟨hturn.isScoped.holds (Nat.lt_of_le_of_lt hn hcount), hcount⟩

mutual

theorem stmt_triple : ∀ s block, Triple (Frame.Holds outer block []) (stmt outer s block)
    (fun next fr ↦ fr.Holds outer next []) (Frame.Scoped outer)
  | .assign ident value, block => by
    rw [stmt]
    exact requireOpen_bind_triple (fun _ h ↦ h.isScoped) <|
      (within_triple (fun henv ↦ expr_yields henv value []) fun env ↦ expr_moves env value).bind
        fun v ↦ (assign_triple _ _ _ _).bind fun _ ↦ .of_pure fun _ h ↦ h
  | .ret value, block => by
    rw [stmt]
    exact requireOpen_bind_triple (fun _ h ↦ h.isScoped) <|
      (within_triple (fun henv ↦ expr_yields henv value []) fun env ↦ expr_moves env value).bind
        fun v ↦ returnValue_triple.bind fun _ ↦ .of_pure fun _ h ↦ h
  | .ifThen cond body, block => by
    rw [stmt]
    refine requireOpen_bind_triple (fun _ h ↦ h.isScoped) <|
      (within_triple (fun henv ↦ condition_yields henv cond)
        fun env ↦ condition_moves env cond).bind fun c ↦ ?_
    rw [fork_bind]
    refine Triple.bind (Q := fun n fr ↦ At outer n (n + 1) fr) (fun fr h ↦ h.fork) fun n ↦ ?_
    exact body_triple (stmts_triple body n) (stmts_moves outer body n) (pure_triple (Nat.le_refl _))
  | .ifElse cond body otherwise, block => by
    rw [stmt]
    refine requireOpen_bind_triple (fun _ h ↦ h.isScoped) <|
      (within_triple (fun henv ↦ condition_yields henv cond)
        fun env ↦ condition_moves env cond).bind fun c ↦ ?_
    rw [forkElse_bind]
    refine Triple.bind (Q := fun n fr ↦ At outer n (n + 2) fr) (fun fr h ↦ h.forkElse) fun n ↦ ?_
    refine body_triple (stmts_triple body n) (stmts_moves outer body n)
      (Triple.of_at ?_ (Nat.le_succ (n + 1)))
    exact body_triple (stmts_triple otherwise (n + 1)) (stmts_moves outer otherwise (n + 1))
      (pure_triple (Nat.le_refl _))
  | .loop cond body, block => by
    rw [stmt]
    refine requireOpen_bind_triple (fun _ h ↦ h.isScoped) ?_
    rw [enterLoop_bind]
    refine Triple.bind (Q := fun n fr ↦ At outer n (n + 2) fr) (fun fr h ↦ h.enterLoop) fun n ↦ ?_
    -- The blocks of the loop are still there when the condition has been lowered.
    have hcond := (within_triple (fun henv ↦ condition_yields henv cond)
      fun env ↦ condition_moves env cond).frame (F := fun fr ↦ n + 2 < fr.count)
      (within_moves outer n fun env ↦ condition_moves env cond)
      fun _ _ hextends hlt ↦ Nat.lt_of_lt_of_le hlt hextends.count_le
    refine hcond.bind fun c ↦ (turn_triple (by omega)).bind fun _ ↦ ?_
    exact body_triple (stmts_triple body (n + 1)) (stmts_moves outer body (n + 1))
      (pure_triple (Nat.le_refl _))
  | .eval value, block => by
    rw [stmt.eq_def]
    refine requireOpen_bind_triple (fun _ h ↦ h.isScoped) ?_
    cases value with
    | call ident args =>
      exact (within_triple (fun henv ↦ call_yields henv ident args)
        fun env ↦ call_moves env ident args).bind fun _ ↦
        .of_pure fun _ h ↦ h.isScoped.holds h.lt
    | number | text | name | binary =>
      exact (within_triple (fun henv ↦ expr_yields henv _ []) fun env ↦ expr_moves env _).bind
        fun _ ↦ .of_pure fun _ h ↦ h.isScoped.holds h.lt
termination_by structural s => s

theorem stmts_triple : ∀ ss block, Triple (Frame.Holds outer block []) (stmts outer ss block)
    (fun next fr ↦ fr.Holds outer next []) (Frame.Scoped outer)
  | [], block => .of_pure fun _ h ↦ h
  | s :: rest, block => by
    rw [stmts]
    exact (stmt_triple s block).bind fun next ↦ stmts_triple rest next
termination_by structural ss => ss

end

theorem bindParams_triple (ps : List (String × Value)) (block : Nat) :
    Triple (fun fr ↦ fr.Holds outer block (ps.map Prod.snd)) (bindParams outer block ps)
      (fun _ fr ↦ fr.Holds outer block []) (Frame.Scoped outer) := by
  induction ps with
  | nil => exact .of_pure fun _ h ↦ h
  | cons p rest ih =>
    -- The values of the other parameters are carried over the assignment.
    have hassign := (assign_triple outer block p.1 p.2).frame
      (F := fun fr ↦ ∀ u ∈ rest.map Prod.snd, u.Defined (fr.surroundings outer) (fr.code block))
      (assign_moves outer block p.1 p.2)
      fun _ _ hextends h u hu ↦ (h u hu).mono hextends.surroundings (hextends.code block)
    refine Triple.bind (hassign.weaken (fun fr h ↦ ⟨⟨h.isScoped, h.lt, fun u hu ↦ ?_⟩,
      fun u hu ↦ h.values u (List.mem_cons_of_mem _ hu)⟩) fun _ _ h ↦ h) fun _ ↦
      ih.weaken (fun fr h ↦ ⟨h.1.isScoped, h.1.lt, h.2⟩) fun _ _ h ↦ h
    rw [List.mem_singleton.mp hu]
    exact h.values p.2 List.mem_cons_self

theorem finish_triple (head : Prototype) (block : Nat) :
    Triple (Frame.Holds outer block []) (finish head block) (fun _ fr ↦ fr.Scoped outer)
      (Frame.Scoped outer) := by
  intro fr h
  rw [finish, bind_state_apply]
  split
  · exact h.isScoped
  · split
    · exact (h.terminate (i := .unreachable) (List.nil_subset _) rfl).isScoped
    · rw [bind_require_apply]
      split
      · exact (h.terminate (i := .ret none) (List.nil_subset _) rfl).isScoped
      · exact h.isScoped

theorem defined_of_mem_paramValues {f : Function} {w : Surroundings} {code : List Instr} {v : Value}
    (hw : w.params = f.params.map Param.ty) (hv : v ∈ f.paramValues) : v.Defined w code := by
  obtain ⟨⟨p, i⟩, hp, rfl⟩ := List.mem_map.mp hv
  rw [List.mem_zipIdx_iff_getElem?] at hp
  change w.params[i]?.map Ty.kind = _
  rw [hw, List.getElem?_map, hp]
  rfl

theorem body_triple_of_enter (outer : Outer) (head : Prototype) (ss : List Stmt)
    (hglobals : ∀ ident b, outer.globals ident = some b → ∃ x, b.value = .number x) :
    Triple (fun fr ↦ fr.function.blocks = []) (body head ss outer) (fun _ fr ↦ fr.Scoped outer)
      (Frame.Scoped outer) := by
  intro fr hblocks
  have hempty : ∀ x, (fr.enter head).code x = [] := Frame.code_enter_of_nil head hblocks
  -- No instruction is there yet, and no local is bound.
  have hscoped : (fr.enter head).Scoped outer :=
    ⟨fun b ↦ (hempty b).symm ▸ scopedCode_nil, List.Subset.refl _, hglobals, nofun⟩
  have henter : (fr.enter head).Holds outer fr.count
      (((fr.enter head).function.bindings head).map Prod.snd) := by
    refine ⟨hscoped, by simp, fun v hv ↦ ?_⟩
    obtain ⟨⟨ident, v⟩, hmem, rfl⟩ := List.mem_map.mp hv
    exact defined_of_mem_paramValues rfl (List.of_mem_zip hmem).2
  rw [body_apply]
  refine ((bindParams_triple _ fr.count).bind fun _ ↦ (stmts_triple ss fr.count).bind fun last ↦
    (finish_triple head last).bind fun _ ↦ Triple.of_update fun fr h ↦ ?_) _ henter
  exact ⟨h.code, h.env.signatures, h.env.globals, nofun⟩

end Lowering

/-! ## Contexts -/

namespace Context

/-- Every global is bound to a number. -/
def Numeric (c : Context) : Prop :=
  ∀ ident b, c.scopes.get? .global ident = some b → ∃ x, b.value = .number x

variable {c : Context}

theorem Numeric.declare (h : c.Numeric) (head : Prototype) : (c.declare head).Numeric := h

theorem Numeric.withFrame {id : Nat} {fr : Frame} (h : c.Numeric) :
    (c.withFrame id fr).Numeric := by
  intro ident b hb
  rw [globals_withFrame] at hb
  exact h ident b hb

theorem Numeric.bindGlobal {ident : String} {v : Value} (h : c.Numeric)
    (hv : (∃ x, v = .number x) ∨ ∃ ident b, c.scopes.get? .global ident = some b ∧ v = b.value) :
    (c.bindGlobal ident v).Numeric := by
  intro name b hb
  rw [Context.bindGlobal, ScopeTable.get?_bind] at hb
  split at hb
  · obtain rfl := Option.some.inj hb
    rcases hv with ⟨x, rfl⟩ | ⟨other, g, hg, rfl⟩
    · exact ⟨x, rfl⟩
    · exact h other g hg
  · exact h name b hb

theorem numeric_empty : Context.empty.Numeric := nofun

theorem Scoped.declare (h : c.Scoped) (head : Prototype) : (c.declare head).Scoped := by
  intro f hf block hblock
  rcases List.mem_append.mp hf with hf | hf
  · refine (h f hf block hblock).mono ⟨rfl, List.prefix_refl _, List.prefix_refl _, ?_⟩
    exact (Extends.declare c head).signatures_subset
  · rw [List.mem_singleton.mp hf] at hblock
    exact absurd hblock List.not_mem_nil

theorem Scoped.withFrame {id : Nat} {f : Function} {fr : Frame} (h : c.Scoped)
    (hf : c.functions[id]? = some f) (hextends : (c.frame id f).Extends fr)
    (hfr : fr.Scoped c.outer) : (c.withFrame id fr).Scoped := by
  have hsignatures := signatures_withFrame hf hextends.signature
  intro g hg block hblock
  rcases List.mem_or_eq_of_mem_set hg with hg | rfl
  · refine (h g hg block hblock).mono ⟨rfl, List.prefix_refl _, hextends.symbols.texts, ?_⟩
    change c.signatures ⊆ (c.withFrame id fr).signatures
    rw [hsignatures]
    exact List.Subset.refl _
  · obtain ⟨b, hb⟩ := List.getElem?_of_mem hblock
    have hcode := hfr.code b
    rw [Frame.code, Function.code_of_getElem? hb] at hcode
    refine hcode.mono ⟨rfl, List.prefix_refl _, List.prefix_refl _, ?_⟩
    change c.signatures ⊆ (c.withFrame id fr).signatures
    rw [hsignatures]
    exact List.Subset.refl _

/-- No function loses an instruction. -/
def KeepsCode (c c' : Context) : Prop :=
  ∀ (id : Nat) (f : Function), c.functions[id]? = some f →
    ∃ f', c'.functions[id]? = some f' ∧ ∀ b, f.code b <+: f'.code b

theorem Extends.keepsCode {c' : Context} (h : c.Extends c') : c.KeepsCode c' := by
  intro id f hf
  obtain ⟨f', hf', -, -, hsame⟩ := h.functions id f hf
  refine ⟨f', hf', fun b ↦ ?_⟩
  by_cases hblocks : f.blocks = []
  · rw [Function.code_of_le (hblocks ▸ Nat.zero_le b)]
    exact List.nil_prefix
  · exact prefix_of_eq (by rw [hsame hblocks])

end Context

namespace Lowering

theorem decl_keeps_scoped : ∀ d, Moves (Keeps fun c ↦ c.Scoped ∧ c.Numeric) (decl d) :=
  decl_moves (fun _ head _ h ↦ ⟨h.1.declare head, h.2.declare head⟩)
    (fun c id f head ss hf hblocks _ h ↦ by
      have hbody := body_triple_of_enter c.outer head ss h.2 (c.frame id f) hblocks
      have hextends := body_moves head ss c.outer (c.frame id f)
      refine ⟨h.1.withFrame hf hextends ?_, h.2.withFrame⟩
      generalize body head ss c.outer (c.frame id f) = r at hbody ⊢
      rcases r with ⟨_ | _, _⟩
      · exact hbody
      · exact hbody)
    fun _ _ _ hv h ↦ ⟨h.1, h.2.bindGlobal hv⟩

theorem scoped_and_numeric_after (ds : List Decl) :
    (Context.after ds).Scoped ∧ (Context.after ds).Numeric :=
  Context.after_induction ⟨nofun, Context.numeric_empty⟩ (fun c d ↦ decl_keeps_scoped d c) ds

/-- In every module that declarations lead to, refused ones included, definitions precede uses. What
an operand refers to stays: neither a declaration nor a statement nor an expression, whatever its
outcome, takes back an instruction that was there before it. -/
theorem definitions_precede_uses (ds : List Decl) :
    (Context.after ds).Scoped ∧
      (∀ d, (Context.after ds).KeepsCode (Context.after (ds ++ [d]))) ∧
      (∀ outer s block (fr : Frame) (b : Nat),
        fr.code b <+: Frame.code (stmt outer s block fr).2 b) ∧
      ∀ env e (t : Tape), t.code <+: Tape.code (expr env e t).2 := by
  refine ⟨(scoped_and_numeric_after ds).1, fun d ↦ ?_,
    fun outer s block fr ↦ (stmt_moves outer s block fr).code,
    fun env e t ↦ (expr_moves env e t).prefix_code⟩
  rw [Context.after_concat]
  exact (decl_extends d _).keepsCode

end Lowering

end BlockCompiler
