import BlockCompiler.Proofs.Declaration
import BlockCompiler.Proofs.Naming
import BlockCompiler.Proofs.Parsing
import BlockCompiler.Proofs.Scoping
import Mathlib.Data.List.Forall2

/-!
# Types of instructions

Every instruction of every module that declarations can lead to is well typed (`Context.WellTyped`),
those included that a refused body has left behind.

## Marks and kinds

A value is marked with its kind when it is yielded, and it is these marks that lowering tests. The
judgement does not trust them: the kind of an operand follows from what the operand refers to
(`Value.HasKind`), which is a string constant, a parameter, or the result of an earlier instruction.
The two are related in two steps. The marks of all operands fit their instructions, which every
single step of lowering preserves (`Frame.Marked`); and since every operand is defined where it
is used, its mark is its kind.
-/

namespace BlockCompiler

/-! ## The judgement -/

/-- The kind of an operand behind the instructions of `code`. The address of a slot has none: it can
only be read and written. -/
inductive Value.HasKind (w : Surroundings) (code : List Instr) : Value → Kind → Prop
  | number {x : Float} : HasKind w code (.number x) .double
  | bit {b : Bool} : HasKind w code (.bit b) .bit
  | text {index : Nat} (isThere : index < w.texts.length) : HasKind w code (.text index) .pointer
  | param {index : Nat} {mark : Kind} {ty : Ty} (declared : w.params[index]? = some ty) :
      HasKind w code (.param index mark) ty.kind
  | temp {index : Nat} {mark kind : Kind} {i : Instr} (earlier : code[index]? = some i)
      (result : i.resultKind? = some kind) : HasKind w code (.temp index mark) kind

/-- The operand is the address of a slot for values of the type. -/
def Value.IsSlot (w : Surroundings) (v : Value) (ty : Ty) : Prop :=
  ∃ index, v = .slot index ty ∧ w.slots[index]?.map Slot.ty = some ty

/-- The instruction is typed, where `isA` says which operands are of which kind, `isSlot` which are
the addresses of slots for which type, and `ret` is the type of the result of the function. -/
inductive Instr.Typed (isA : Value → Kind → Prop) (isSlot : Value → Ty → Prop)
    (signatures : List Signature) (ret : Ty) : Instr → Prop
  | load {address : Value} {ident : String} {ty : Ty} (slot : isSlot address ty) :
      Typed isA isSlot signatures ret (.load address ident)
  | store {value address : Value} {ty : Ty} (slot : isSlot address ty)
      (storable : ty.isStorable) (stored : isA value ty.kind) :
      Typed isA isSlot signatures ret (.store value address)
  | arith {op : Arith} {lhs rhs : Value} (left : isA lhs .double) (right : isA rhs .double) :
      Typed isA isSlot signatures ret (.arith op lhs rhs)
  | compare {relation : Comparison} {lhs rhs : Value} (left : isA lhs .double)
      (right : isA rhs .double) : Typed isA isSlot signatures ret (.compare relation lhs rhs)
  | test {value : Value} (number : isA value .double) :
      Typed isA isSlot signatures ret (.test value)
  | promote {value : Value} (bit : isA value .bit) :
      Typed isA isSlot signatures ret (.promote value)
  | call {s : Signature} {args : List Value} (declared : s ∈ signatures)
      (passed : List.Forall₂ (fun v (ty : Ty) ↦ ty.isStorable ∧ isA v ty.kind) args s.params) :
      Typed isA isSlot signatures ret (.call s.symbol s.ret args)
  | retNone (void : ret = .void) : Typed isA isSlot signatures ret (.ret none)
  | retSome {value : Value} (storable : ret.isStorable) (returned : isA value ret.kind) :
      Typed isA isSlot signatures ret (.ret (some value))
  | jump {target : Nat} : Typed isA isSlot signatures ret (.jump target)
  | branch {cond : Value} {ifTrue ifFalse : Nat} (bit : isA cond .bit) :
      Typed isA isSlot signatures ret (.branch cond ifTrue ifFalse)
  | unreachable : Typed isA isSlot signatures ret .unreachable

/-- The instruction may stand behind the instructions of `code`, in a function with a result of the
type `ret`. -/
def Instr.WellTyped (w : Surroundings) (ret : Ty) (code : List Instr) : Instr → Prop :=
  Instr.Typed (Value.HasKind w code) (Value.IsSlot w) w.signatures ret

/-- Every instruction is well typed behind those in front of it. -/
def Context.WellTyped (c : Context) : Prop :=
  ∀ f ∈ c.functions, ∀ block ∈ f.blocks, ∀ (k : Nat) (i : Instr), block.code[k]? = some i →
    i.WellTyped (c.surroundings f) f.signature.ret (block.code.take k)

/-- An operand is of one kind at most. -/
theorem Value.HasKind.unique {w : Surroundings} {code : List Instr} {v : Value} {k k' : Kind}
    (h : v.HasKind w code k) (h' : v.HasKind w code k') : k = k' := by
  cases h with
  | number | bit | text => cases h' with | _ => rfl
  | param declared =>
    cases h' with
    | param declared' => rw [Option.some.inj (declared.symm.trans declared')]
  | temp earlier result =>
    cases h' with
    | temp earlier' result' =>
      obtain rfl := Option.some.inj (earlier.symm.trans earlier')
      exact Option.some.inj (result.symm.trans result')

theorem Instr.Typed.mono {isA isA' : Value → Kind → Prop} {isSlot isSlot' : Value → Ty → Prop}
    {signatures signatures' : List Signature} {ret : Ty} {i : Instr}
    (h : i.Typed isA isSlot signatures ret)
    (hisA : ∀ v ∈ i.operands, ∀ kind, isA v kind → isA' v kind)
    (hisSlot : ∀ v ∈ i.operands, ∀ ty, isSlot v ty → isSlot' v ty)
    (hsignatures : signatures ⊆ signatures') : i.Typed isA' isSlot' signatures' ret := by
  cases h with
  | load slot => exact .load (hisSlot _ (by simp [operands]) _ slot)
  | store slot storable stored =>
    exact .store (hisSlot _ (by simp [operands]) _ slot) storable
      (hisA _ (by simp [operands]) _ stored)
  | arith left right =>
    exact .arith (hisA _ (by simp [operands]) _ left) (hisA _ (by simp [operands]) _ right)
  | compare left right =>
    exact .compare (hisA _ (by simp [operands]) _ left) (hisA _ (by simp [operands]) _ right)
  | test number => exact .test (hisA _ (by simp [operands]) _ number)
  | promote bit => exact .promote (hisA _ (by simp [operands]) _ bit)
  | call declared passed =>
    have hargs := (List.forall₂_and_left (p := (· ∈ _)) _ _).mpr ⟨fun _ hv ↦ hv, passed⟩
    exact .call (hsignatures declared) (hargs.imp fun v ty h ↦ ⟨h.2.1, hisA v h.1 _ h.2.2⟩)
  | retNone void => exact .retNone void
  | retSome storable returned => exact .retSome storable (hisA _ (by simp [operands]) _ returned)
  | jump => exact .jump
  | branch bit => exact .branch (hisA _ (by simp [operands]) _ bit)
  | unreachable => exact .unreachable

/-! ## Marks -/

/-- The value is no slot and is marked with the kind. -/
def Value.Marked (v : Value) (kind : Kind) : Prop :=
  (∀ index ty, v ≠ .slot index ty) ∧ v.kind = kind

/-- The value is a slot that is marked with the type. -/
def Value.MarkedSlot (v : Value) (ty : Ty) : Prop := ∃ index, v = .slot index ty

/-- A value that can be stored, passed and returned. -/
def Value.IsDatum (v : Value) : Prop := ∃ ty : Ty, ty.isStorable ∧ v.Marked ty.kind

/-- The marks of the operands fit the instruction. -/
abbrev Instr.Marked (signatures : List Signature) (ret : Ty) : Instr → Prop :=
  Instr.Typed Value.Marked Value.MarkedSlot signatures ret

/-- The mark of an operand that is defined is its kind. -/
theorem Value.Defined.hasKind {w : Surroundings} {code : List Instr} {v : Value} {kind : Kind}
    (h : v.Defined w code) (hv : v.Marked kind) : v.HasKind w code kind := by
  obtain ⟨hslot, rfl⟩ := hv
  cases v with
  | number => exact .number
  | bit => exact .bit
  | text => exact .text h
  | param index mark =>
    obtain ⟨ty, hty, rfl⟩ := Option.map_eq_some_iff.mp h
    exact .param hty
  | slot index ty => exact absurd rfl (hslot index ty)
  | temp index mark =>
    obtain ⟨i, hi, hkind⟩ := Option.bind_eq_some_iff.mp h
    exact .temp hi hkind

theorem Value.Defined.isSlot {w : Surroundings} {code : List Instr} {v : Value} {ty : Ty}
    (h : v.Defined w code) (hv : v.MarkedSlot ty) : v.IsSlot w ty := by
  obtain ⟨index, rfl⟩ := hv
  exact ⟨index, rfl, h⟩

theorem Instr.Scoped.wellTyped {w : Surroundings} {code : List Instr} {ret : Ty} {i : Instr}
    (h : i.Scoped w code) (hi : i.Marked w.signatures ret) : i.WellTyped w ret code :=
  hi.mono (fun v hv _ ↦ (h.operands v hv).hasKind) (fun v hv _ ↦ (h.operands v hv).isSlot)
    (List.Subset.refl _)

/-- A value that is tested to have a type can be used where this type is wanted. -/
theorem Value.IsDatum.of_ty {v : Value} {ty : Ty} (h : v.IsDatum) (hty : v.ty = ty) :
    ty.isStorable ∧ v.Marked ty.kind := by
  obtain ⟨ty', hstorable, hslot, hkind⟩ := h
  subst hty
  rw [Value.ty, hkind]
  cases ty' with
  | double | string => exact ⟨rfl, hslot, hkind⟩
  | void | invalid => exact absurd hstorable (by simp [Ty.isStorable])

theorem Value.Marked.isDatum {v : Value} (h : v.Marked .double) : v.IsDatum := ⟨.double, rfl, h⟩

/-! ## Expressions -/

/-- A local is bound to a slot of its type, and a global to a number. -/
structure Env.Marked (env : Env) : Prop where
  globals : ∀ ident b, env.globals ident = some b → ∃ x, b.value = .number x
  locals : ∀ ident b, env.locals ident = some b → b.value.MarkedSlot b.ty

/-- The marks fit in all instructions. -/
def Tape.Marked (signatures : List Signature) (ret : Ty) (t : Tape) : Prop :=
  ∀ i ∈ t.code, i.Marked signatures ret

namespace Lowering

section

variable {α : Type} {signatures : List Signature} {ret : Ty} {env : Env}

/-- The marks fit in what the step appends, and its value satisfies `V`. -/
abbrev Marks (signatures : List Signature) (ret : Ty) (m : Lowering Tape α) (V : α → Prop) : Prop :=
  Triple (Tape.Marked signatures ret) m (fun a t ↦ V a ∧ t.Marked signatures ret)
    (Tape.Marked signatures ret)

theorem emit_marks {i : Instr} {kind : Kind} (h : i.Marked signatures ret) :
    Marks signatures ret (emit i kind) fun v ↦ v.Marked kind := by
  intro t ht
  refine ⟨⟨nofun, rfl⟩, fun j hj ↦ ?_⟩
  rcases List.mem_append.mp hj with hj | hj
  · exact ht j hj
  · rwa [List.mem_singleton.mp hj]

theorem pure_marks {a : α} {V : α → Prop} (h : V a) : Marks signatures ret (pure a) V :=
  fun _ ht ↦ ⟨h, ht⟩

theorem fail_marks {e : LoweringError} {V : α → Prop} : Marks signatures ret (fail e) V :=
  fun _ ht ↦ ht

theorem require_marks {cond : Prop} [Decidable cond] {e : LoweringError}
    {f : Unit → Lowering Tape α} {V : α → Prop} (h : cond → Marks signatures ret (f ()) V) :
    Marks signatures ret (require cond e >>= f) V :=
  .bind_require (fun _ ht ↦ ht) h

theorem arith_marks (op : Arith) {lhs rhs : Value} (hl : lhs.Marked .double)
    (hr : rhs.Marked .double) :
    Marks signatures ret (arith op lhs rhs) fun v ↦ v.Marked .double := by
  unfold arith
  split
  · exact pure_marks ⟨nofun, rfl⟩
  · exact emit_marks (.arith hl hr)

theorem compare_marks (relation : Comparison) {lhs rhs : Value} (hl : lhs.Marked .double)
    (hr : rhs.Marked .double) :
    Marks signatures ret (compare relation lhs rhs) fun v ↦ v.Marked .bit := by
  unfold compare
  split
  · exact pure_marks ⟨nofun, rfl⟩
  · exact emit_marks (.compare hl hr)

theorem test_marks {v : Value} (h : v.Marked .double) :
    Marks signatures ret (test v) fun c ↦ c.Marked .bit := by
  unfold test
  split
  · exact pure_marks ⟨nofun, rfl⟩
  · exact emit_marks (.test h)

theorem promote_marks {v : Value} (h : v.Marked .bit) :
    Marks signatures ret (promote v) fun v ↦ v.Marked .double := by
  unfold promote
  split
  · exact pure_marks ⟨nofun, rfl⟩
  · exact emit_marks (.promote h)

theorem operate_marks (op : Operator) {lhs rhs : Value} (hl : lhs.Marked .double)
    (hr : rhs.Marked .double) :
    Marks signatures ret (operate op lhs rhs) fun v ↦ v.Marked .double := by
  cases op with
  | add | sub | mul => exact arith_marks _ hl hr
  | less | greater | equal | notEqual =>
    exact (compare_marks _ hl hr).bind_value fun v hv ↦ promote_marks hv

/-- Operands that are both marked as numbers are none of them slots. -/
theorem combine_marks (op : Operator) {lhs rhs : Value} (hl : lhs.IsDatum) (hr : rhs.IsDatum) :
    Marks signatures ret (combine op lhs rhs) Value.IsDatum := by
  obtain ⟨_, -, hl, -⟩ := hl
  obtain ⟨_, -, hr, -⟩ := hr
  exact .combine (fun _ ht ↦ ht) fun hlhs hrhs ↦
    (operate_marks op ⟨hl, hlhs⟩ ⟨hr, hrhs⟩).weaken (fun _ h ↦ h) fun _ _ h ↦ ⟨h.1.isDatum, h.2⟩

/-- What a refused step takes back leaves the instructions that were there. -/
theorem rewinding_marks {m : Lowering Tape α} {V : α → Prop} (h : Marks signatures ret m V)
    (hm : Moves Tape.Extends m) : Marks signatures ret (rewinding m) V :=
  h.rewinding hm fun _ _ ht _ ↦ ht

theorem readName_marks (henv : env.Marked) (ident : String) :
    Marks signatures ret (readName env ident) Value.IsDatum := by
  unfold readName
  split
  · next b hb =>
    obtain ⟨index, hslot⟩ := henv.locals ident b hb
    have hload : Marks signatures ret (do
        require b.ty.isStorable (.noStorageType ident)
        emit (.load (.slot index b.ty) ident) b.ty.kind) Value.IsDatum :=
      require_marks fun hstorable ↦ (emit_marks (.load ⟨index, rfl⟩)).weaken (fun _ h ↦ h)
        fun _ _ h ↦ ⟨⟨b.ty, hstorable, h.1⟩, h.2⟩
    intro t ht
    rw [bind_apply, address_apply, hslot]
    exact hload t ht
  · split
    · next b hb =>
      obtain ⟨x, hx⟩ := henv.globals ident b hb
      exact pure_marks (hx ▸ ⟨.double, rfl, nofun, rfl⟩)
    · exact fail_marks

theorem callWith_marks (ident : String) (count : Nat) {args : List Ty → Lowering Tape (List Value)}
    (h : ∀ tys, tys.length = count → Marks env.signatures ret (args tys) fun values ↦
      List.Forall₂ (fun v (ty : Ty) ↦ ty.isStorable ∧ v.Marked ty.kind) values tys)
    (hm : ∀ tys, Moves Tape.Extends (args tys)) :
    Marks env.signatures ret (callWith env ident count args) fun o ↦ ∀ v ∈ o, v.IsDatum := by
  unfold callWith
  split
  · exact fail_marks
  · next callee hcallee =>
    have hmem : callee ∈ env.signatures := List.mem_of_find?_eq_some hcallee
    refine require_marks fun hlength ↦ (rewinding_marks (h _ hlength) (hm _)).bind_value
      fun values hvalues ↦ (emit_marks (.call hmem hvalues)).bind_value fun v hv ↦ ?_
    by_cases hret : callee.ret.isStorable = true
    · rw [if_pos hret]
      exact pure_marks fun _ hv' ↦ Option.mem_some.mp hv' ▸ ⟨callee.ret, hret, hv⟩
    · rw [if_neg hret]
      exact pure_marks fun _ hv' ↦ absurd hv' (by simp)

mutual

theorem expr_marks (henv : env.Marked) : ∀ e, Marks env.signatures ret (expr env e) Value.IsDatum
  | .number x => pure_marks ⟨.double, rfl, nofun, rfl⟩
  | .text contents => fun t ht ↦ ⟨⟨.string, rfl, nofun, rfl⟩, ht⟩
  | .name ident => readName_marks henv ident
  | .call ident args => by
    rw [expr]
    refine (callWith_marks ident args.length (fun tys ↦ arguments_marks henv ident args tys)
      fun tys ↦ arguments_moves env ident args tys).bind_value fun result hresult ↦ ?_
    cases result with
    | none => exact fail_marks
    | some value => exact pure_marks (hresult value rfl)
  | .binary op lhs rhs => by
    rw [expr]
    refine rewinding_marks ?_ ((expr_moves env lhs).bind fun l ↦ (expr_moves env rhs).bind fun r ↦
      combine_moves op l r)
    exact (expr_marks henv lhs).bind_value fun l hl ↦
      (expr_marks henv rhs).bind_value fun r hr ↦ combine_marks op hl hr
termination_by structural e => e

theorem arguments_marks (henv : env.Marked) (ident : String) :
    ∀ es tys, tys.length = es.length →
      Marks env.signatures ret (arguments env ident es tys) fun values ↦
        List.Forall₂ (fun v (ty : Ty) ↦ ty.isStorable ∧ v.Marked ty.kind) values tys
  | [], tys, hlength => by
    obtain rfl := List.length_eq_zero_iff.mp hlength
    rw [arguments_nil]
    exact pure_marks .nil
  | _ :: _, [], hlength => absurd hlength (by simp)
  | e :: es, ty :: tys, hlength => by
    rw [arguments]
    exact (expr_marks henv e).bind_value fun value hvalue ↦ require_marks fun hty ↦
      (arguments_marks henv ident es tys (Nat.succ.inj hlength)).bind_value
        fun values hvalues ↦ pure_marks (.cons (hvalue.of_ty hty) hvalues)
termination_by structural es => es

end

theorem call_marks (henv : env.Marked) (ident : String) (args : List Expr) :
    Marks env.signatures ret (call env ident args) fun o ↦ ∀ v ∈ o, v.IsDatum :=
  callWith_marks ident args.length (fun tys ↦ arguments_marks henv ident args tys)
    fun tys ↦ arguments_moves env ident args tys

theorem condition_marks (henv : env.Marked) (cond : Expr) :
    Marks env.signatures ret (condition env cond) fun c ↦ c.Marked .bit :=
  (expr_marks henv cond).bind_value fun _ hv ↦ require_marks fun hkind ↦ by
    obtain ⟨_, -, hslot, -⟩ := hv
    exact test_marks ⟨hslot, hkind⟩

end

end Lowering

/-! ## Bodies -/

/-- The marks fit in all instructions of the function, and the names are bound accordingly. -/
structure Frame.Marked (outer : Outer) (signature : Signature) (fr : Frame) : Prop where
  isOf : fr.function.signature = signature
  code : ∀ b, ∀ i ∈ fr.code b, i.Marked outer.signatures signature.ret
  env : (fr.env outer).Marked

namespace Frame.Marked

variable {outer : Outer} {signature : Signature} {fr : Frame} {block : Nat}

theorem withTape {t : Tape} (h : fr.Marked outer signature)
    (ht : t.Marked outer.signatures signature.ret) :
    (fr.withTape block t).Marked outer signature := by
  refine ⟨h.isOf, fun b i hi ↦ ?_, h.env⟩
  by_cases hb : b = block
  · subst hb
    have hlt : b < (fr.withTape b t).count := Function.lt_of_mem_code hi
    rw [code_withTape (by simpa using hlt)] at hi
    exact ht i hi
  · exact h.code b i (code_withTape_of_ne hb ▸ hi)

theorem extend {i : Instr} (h : fr.Marked outer signature)
    (hi : i.Marked outer.signatures signature.ret) :
    (fr.extend block [i]).Marked outer signature := by
  refine ⟨h.isOf, fun b j hj ↦ ?_, h.env⟩
  by_cases hb : b = block
  · subst hb
    have hlt : b < (fr.extend b [i]).count := Function.lt_of_mem_code hj
    rw [code_extend (by simpa using hlt), List.mem_append, List.mem_singleton] at hj
    rcases hj with hj | rfl
    · exact h.code b j hj
    · exact hi
  · exact h.code b j (code_extend_of_ne hb ▸ hj)

theorem declare {ident : String} {ty : Ty} (h : fr.Marked outer signature) :
    (fr.declare ident ty).Marked outer signature := by
  refine ⟨h.isOf, h.code, h.env.globals, fun x b hb ↦ ?_⟩
  change (if x = ident then some _ else fr.locals x) = some b at hb
  split at hb
  · obtain rfl := Option.some.inj hb
    exact ⟨fr.function.slots.length, rfl⟩
  · exact h.env.locals x b hb

end Frame.Marked

namespace Lowering

variable {outer : Outer} {signature : Signature}

theorem within_marks {α : Type} {m : Env → Lowering Tape α} {V : α → Prop} (block : Nat)
    (hm : ∀ {env : Env}, env.Marked → Marks env.signatures signature.ret (m env) V) :
    Triple (Frame.Marked outer signature) (within outer block m)
      (fun a fr ↦ V a ∧ fr.Marked outer signature) (Frame.Marked outer signature) := by
  intro fr h
  have hpost := hm h.env (fr.tape block) (h.code block)
  rw [within_apply, onBlock_apply]
  generalize m (fr.env outer) (fr.tape block) = r at hpost ⊢
  rcases r with ⟨_ | a, t⟩
  · exact h.withTape hpost
  · exact ⟨hpost.1, h.withTape hpost.2⟩

theorem store_marks {block : Nat} {ident : String} {v : Value} {b : Binding} (hv : v.IsDatum)
    (hb : b.value.MarkedSlot b.ty) :
    Moves (Keeps (Frame.Marked outer signature)) (store block ident v b) := by
  intro fr h
  rw [store_apply]
  split
  · split
    · next hty =>
      obtain ⟨hstorable, hmarked⟩ := hv.of_ty hty.symm
      exact h.extend (.store hb hstorable hmarked)
    · exact h
  · exact h

theorem assign_marks {block : Nat} {ident : String} {v : Value} (hv : v.IsDatum) :
    Moves (Keeps (Frame.Marked outer signature)) (assign outer block ident v) := by
  intro fr h
  cases hlocal : fr.locals ident with
  | some b =>
    rw [assign_apply_of_some hlocal]
    exact store_marks hv (h.env.locals ident b hlocal) fr h
  | none =>
    rw [assign_apply_of_none hlocal]
    split
    · split
      · split
        · exact store_marks hv ⟨_, rfl⟩ _ h.declare
        · exact h
      · exact h
    · exact h

/-- The declared result is looked up under the symbol of the function. -/
theorem returnValue_marks {block : Nat} {v : Value} (hv : v.IsDatum)
    (hret : ∀ s ∈ outer.signatures, s.ident = signature.symbol → s.ret = signature.ret) :
    Moves (Keeps (Frame.Marked outer signature)) (returnValue outer block v) := by
  intro fr h
  rw [returnValue, bind_state_apply, bind_require_apply, h.isOf]
  split
  · next hdeclared =>
    obtain ⟨s, hs, hty⟩ := Option.map_eq_some_iff.mp hdeclared
    have hident : s.ident = signature.symbol := by simpa using List.find?_some hs
    have hty : v.ty = signature.ret :=
      hty.symm.trans (hret s (List.mem_of_find?_eq_some hs) hident)
    obtain ⟨hstorable, hmarked⟩ := hv.of_ty hty
    exact h.extend (.retSome hstorable hmarked)
  · exact h

theorem marked_invariant
    (hret : ∀ s ∈ outer.signatures, s.ident = signature.symbol → s.ret = signature.ret) :
    Invariant outer (Frame.Marked outer signature) Value.IsDatum fun c ↦ c.Marked .bit where
  expr block e := within_marks block fun henv ↦ expr_marks henv e
  condition block e := within_marks block fun henv ↦ condition_marks henv e
  call block ident args := (within_marks block fun henv ↦ call_marks henv ident args).keeps
  assign _ _ _ hv := assign_marks hv
  returnValue _ _ hv := returnValue_marks hv hret
  child _ _ _ h := ⟨h.isOf, fun b i hi ↦ h.code b i (Frame.code_child b ▸ hi), h.env⟩
  branch _ _ _ _ _ hc h := h.extend (.branch hc)
  jump _ _ _ h := h.extend .jump
  unreachable _ _ h := h.extend .unreachable

end Lowering

/-- The value of a parameter can be stored. -/
theorem Function.isDatum_of_mem_bindings {f : Function} {head : Prototype} {p : String × Value}
    (hp : p ∈ f.bindings head) : p.2.IsDatum := by
  obtain ⟨⟨q, index⟩, -, hvalue⟩ := List.mem_map.mp (List.of_mem_zip hp).2
  rw [← hvalue]
  refine (show ∃ ty : Ty, ty.isStorable ∧ q.ty.kind = ty.kind from ?_).imp fun ty hty ↦
    ⟨hty.1, nofun, hty.2⟩
  cases q.ty with
  | string => exact ⟨.string, rfl, rfl⟩
  | double | void | invalid => exact ⟨.double, rfl, rfl⟩

/-! ## Modules -/

/-- The marks fit in all instructions of the module. -/
def Context.Marked (c : Context) : Prop :=
  ∀ f ∈ c.functions, ∀ b, ∀ i ∈ f.code b, i.Marked c.signatures f.signature.ret

namespace Context

variable {c : Context}

theorem marked_empty : empty.Marked := nofun

theorem Marked.declare (h : c.Marked) (head : Prototype) : (c.declare head).Marked := by
  intro f hf b i hi
  rcases List.mem_append.mp hf with hf | hf
  · refine (h f hf b i hi).mono (fun _ _ _ hv ↦ hv) (fun _ _ _ hv ↦ hv) ?_
    exact (Extends.declare c head).signatures_subset
  · rw [List.mem_singleton.mp hf, Function.code_of_le (Nat.zero_le b)] at hi
    exact absurd hi List.not_mem_nil

theorem Marked.withFrame {id : Nat} {f : Function} {fr : Frame} (h : c.Marked)
    (hf : c.functions[id]? = some f) (hfr : fr.Marked c.outer f.signature) :
    (c.withFrame id fr).Marked := by
  intro g hg b i hi
  rw [signatures_withFrame hf hfr.isOf]
  rcases List.mem_or_eq_of_mem_set hg with hg | rfl
  · exact h g hg b i hi
  · rw [hfr.isOf]
    exact hfr.code b i hi

/-- The result that is declared under the symbol of a function is its own. -/
theorem Named.ret_eq (h : c.Named) {id : Nat} {f : Function} (hf : c.functions[id]? = some f) :
    ∀ s ∈ c.outer.signatures, s.ident = f.signature.symbol → s.ret = f.signature.ret := by
  intro s hs heq
  rw [h.eq_of_ident_eq_symbol (List.mem_map_of_mem (List.mem_of_getElem? hf)) hs heq]

/-- A function that had no body starts without instructions. -/
theorem Numeric.marked_enter (h : c.Numeric) {id : Nat} {f : Function} (head : Prototype)
    (hblocks : f.blocks = []) : ((c.frame id f).enter head).Marked c.outer f.signature := by
  refine ⟨rfl, fun b i hi ↦ ?_, h, nofun⟩
  rw [Frame.code_enter_of_nil head hblocks] at hi
  exact absurd hi List.not_mem_nil

/-- What is left of the body of a function that had none. -/
theorem marked_body {id : Nat} {f : Function} {head : Prototype} {ss : List Stmt} (hnamed : c.Named)
    (hnumeric : c.Numeric) (hf : c.functions[id]? = some f) (hblocks : f.blocks = [])
    (hmatches : f.Matches head) :
    (Lowering.body head ss c.outer (c.frame id f)).2.Marked c.outer f.signature :=
  (Lowering.marked_invariant (hnamed.ret_eq hf)).body_keeps (hnumeric.marked_enter head hblocks)
    (fun _ ↦ Function.isDatum_of_mem_bindings)
    (fun hvoid _ _ h ↦ h.extend (.retNone (hmatches.ret.trans hvoid)))
    fun _ h ↦ ⟨h.isOf, h.code, h.env.globals, nofun⟩

end Context

namespace Lowering

/-- What declarations from a source text keep. -/
theorem decl_marked {d : Decl} (hparsed : d.Parsed) :
    Moves (Keeps fun c ↦ c.Named ∧ c.Numeric ∧ c.Marked) (decl d) :=
  moves_of_decl
    (fun _ head hd hnew h ↦
      ⟨h.1.declare hnew (hparsed.dot_not_mem hd), h.2.1.declare head, h.2.2.declare head⟩)
    (fun _ _ _ head ss _ hf hblocks hmatches h ↦
      ⟨h.1.withFrame hf (body_moves head ss _ _), h.2.1.withFrame,
        h.2.2.withFrame hf (Context.marked_body h.1 h.2.1 hf hblocks hmatches)⟩)
    fun _ ident v hv h ↦ ⟨h.1.bindGlobal ident v, h.2.1.bindGlobal hv, h.2.2⟩

theorem marked_after {ds : List Decl} (hparsed : ∀ d ∈ ds, d.Parsed) :
    (Context.after ds).Named ∧ (Context.after ds).Numeric ∧ (Context.after ds).Marked :=
  Context.after_induction_of_mem (P := fun c ↦ c.Named ∧ c.Numeric ∧ c.Marked) ds
    ⟨Context.named_empty, Context.numeric_empty, Context.marked_empty⟩
    fun c d hd ↦ decl_marked (hparsed d hd) c

theorem wellTyped_after {ds : List Decl} (hparsed : ∀ d ∈ ds, d.Parsed) :
    (Context.after ds).WellTyped := by
  intro f hf block hblock k i hi
  obtain ⟨b, hb⟩ := List.getElem?_of_mem hblock
  refine ((scoped_and_numeric_after ds).1 f hf block hblock k i hi).wellTyped ?_
  refine (marked_after hparsed).2.2 f hf b i ?_
  rw [Function.code_of_getElem? hb]
  exact List.mem_of_getElem? hi

/-- In every module that declarations from a source text lead to, refused ones included, every
instruction is well typed. A call names one function only. -/
theorem well_typed_after (ds : List Decl) (hparsed : ∀ d ∈ ds, d.Parsed) :
    (Context.after ds).WellTyped ∧
      ((Context.after ds).signatures.map Signature.symbol).Nodup :=
  ⟨wellTyped_after hparsed, (consistent_after ds).symbols⟩

/-- The body of `g` is refused at its return, behind a call of `f` and a comparison. -/
theorem well_typed_refused_body :
    (Context.after
      [.external ⟨.double, "f", [⟨.string, "s"⟩]⟩,
        .function ⟨.string, "g", [⟨.double, "x"⟩]⟩ [.ifThen
          (.binary .less (.call "f" [.text "a"]) (.name "x")) [.ret (.name "x")]]]).WellTyped ∧
      ((Context.after
        [.external ⟨.double, "f", [⟨.string, "s"⟩]⟩,
          .function ⟨.string, "g", [⟨.double, "x"⟩]⟩ [.ifThen
            (.binary .less (.call "f" [.text "a"]) (.name "x")) [.ret (.name "x")]]]).signatures.map
        Signature.symbol).Nodup := by
  refine well_typed_after _ ?_
  simp only [List.forall_mem_cons]
  exact ⟨parsed_of_first "extern double f(string s);" (by decide +kernel),
    parsed_of_first "def string g(double x) \x7b if f(\"a\") < x \x7b return x; \x7d \x7d"
      (by decide +kernel), nofun⟩

end Lowering

end BlockCompiler
