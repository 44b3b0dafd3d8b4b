import BlockCompiler.Proofs.Derivation

/-!
# What every step of a body keeps

A property of the function under construction that no single step of lowering loses, whatever its
outcome, holds all along the statements of a body, and of what is left of them if they are refused
half-way (`Lowering.Invariant.stmts_keeps`). The steps are few (`Lowering.Invariant`). Some of them
append an instruction with a value that an earlier step has yielded, so a property comes with what
is known of the values of expressions and of conditions.

Where the values play no part, it is enough that no change of a frame takes the property away
(`Lowering.Stable`), or that none does that may come from an expression (`Lowering.StableAlong`).
-/

namespace BlockCompiler

namespace Lowering

/-! ## The steps of a body -/

/-- Every single step keeps the property `K`. The values of expressions satisfy `Datum`, those of
conditions satisfy `Bit`. -/
structure Invariant (outer : Outer) (K : Frame → Prop) (Datum Bit : Value → Prop) : Prop where
  expr : ∀ block e,
    Triple K (within outer block fun env ↦ expr env e) (fun v fr ↦ Datum v ∧ K fr) K
  condition : ∀ block e,
    Triple K (within outer block fun env ↦ condition env e) (fun c fr ↦ Bit c ∧ K fr) K
  call : ∀ block ident args,
    Moves (Keeps K) (within outer block fun env ↦ call env ident args)
  assign : ∀ block ident v, Datum v → Moves (Keeps K) (assign outer block ident v)
  returnValue : ∀ block v, Datum v → Moves (Keeps K) (returnValue outer block v)
  child : ∀ fr parent role, K fr → K (Frame.child fr parent role)
  branch : ∀ fr block c x y, Bit c → K fr → K (Frame.extend fr block [.branch c x y])
  jump : ∀ fr block x, K fr → K (Frame.extend fr block [.jump x])
  unreachable : ∀ fr block, K fr → K (Frame.extend fr block [.unreachable])

namespace Invariant

variable {outer : Outer} {K K' : Frame → Prop} {Datum Bit Datum' Bit' : Value → Prop}

/-- Two properties that are kept are kept together. -/
theorem and (h : Invariant outer K Datum Bit) (h' : Invariant outer K' Datum' Bit') :
    Invariant outer (fun fr ↦ K fr ∧ K' fr) (fun v ↦ Datum v ∧ Datum' v)
      (fun c ↦ Bit c ∧ Bit' c) where
  expr block e := ((h.expr block e).and (h'.expr block e)).weaken (fun _ hK ↦ hK)
    fun _ _ hpost ↦ ⟨⟨hpost.1.1, hpost.2.1⟩, hpost.1.2, hpost.2.2⟩
  condition block e := ((h.condition block e).and (h'.condition block e)).weaken (fun _ hK ↦ hK)
    fun _ _ hpost ↦ ⟨⟨hpost.1.1, hpost.2.1⟩, hpost.1.2, hpost.2.2⟩
  call block ident args fr hK := ⟨h.call block ident args fr hK.1, h'.call block ident args fr hK.2⟩
  assign block ident v hv fr hK :=
    ⟨h.assign block ident v hv.1 fr hK.1, h'.assign block ident v hv.2 fr hK.2⟩
  returnValue block v hv fr hK :=
    ⟨h.returnValue block v hv.1 fr hK.1, h'.returnValue block v hv.2 fr hK.2⟩
  child fr parent role hK := ⟨h.child fr parent role hK.1, h'.child fr parent role hK.2⟩
  branch fr block c x y hc hK :=
    ⟨h.branch fr block c x y hc.1 hK.1, h'.branch fr block c x y hc.2 hK.2⟩
  jump fr block x hK := ⟨h.jump fr block x hK.1, h'.jump fr block x hK.2⟩
  unreachable fr block hK := ⟨h.unreachable fr block hK.1, h'.unreachable fr block hK.2⟩

theorem requireOpen_keeps (block : Nat) : Moves (Keeps K) (requireOpen block) :=
  moves_state.bind fun _ ↦ moves_require _ _

theorem childBlock_keeps (h : Invariant outer K Datum Bit) (parent : Nat) (role : Role) :
    Moves (Keeps K) (childBlock parent role) :=
  fun fr ↦ h.child fr parent role

theorem branch_keeps (h : Invariant outer K Datum Bit) (block : Nat) {c : Value} (hc : Bit c)
    (x y : Nat) :
    Moves (Keeps K) (onBlock block (emitPlain (.branch c x y))) :=
  fun fr ↦ h.branch fr block c x y hc

theorem jump_keeps (h : Invariant outer K Datum Bit) (block x : Nat) :
    Moves (Keeps K) (onBlock block (emitPlain (.jump x))) :=
  fun fr ↦ h.jump fr block x

theorem close_keeps (h : Invariant outer K Datum Bit) (block target : Nat) :
    Moves (Keeps K) (close block target) := by
  intro fr hfr
  rw [close_apply, Frame.close]
  split
  · exact hfr
  · split
    · exact h.unreachable fr block hfr
    · exact h.jump fr block target hfr

mutual

theorem stmt_keeps (h : Invariant outer K Datum Bit) :
    ∀ s block, Moves (Keeps K) (stmt outer s block)
  | .assign ident value, block => by
    rw [stmt]
    exact (requireOpen_keeps block).bind fun _ ↦ (h.expr block value).bind_keeps fun v hv ↦
      (h.assign block ident v hv).bind fun _ ↦ moves_pure _
  | .ret value, block => by
    rw [stmt]
    exact (requireOpen_keeps block).bind fun _ ↦ (h.expr block value).bind_keeps fun v hv ↦
      (h.returnValue block v hv).bind fun _ ↦ moves_pure _
  | .ifThen cond body, block => by
    rw [stmt]
    exact (requireOpen_keeps block).bind fun _ ↦ (h.condition block cond).bind_keeps fun c hc ↦
      (h.childBlock_keeps block .ifTrue).bind fun ifTrue ↦
      (h.childBlock_keeps block .ifAfter).bind fun after ↦
      (h.branch_keeps block hc ifTrue after).bind fun _ ↦
      (stmts_keeps h body ifTrue).bind fun bodyEnd ↦
      (h.close_keeps bodyEnd after).bind fun _ ↦ moves_pure _
  | .ifElse cond body otherwise, block => by
    rw [stmt]
    exact (requireOpen_keeps block).bind fun _ ↦ (h.condition block cond).bind_keeps fun c hc ↦
      (h.childBlock_keeps block .ifTrue).bind fun ifTrue ↦
      (h.childBlock_keeps block .ifFalse).bind fun ifFalse ↦
      (h.childBlock_keeps block .ifAfter).bind fun after ↦
      (h.branch_keeps block hc ifTrue ifFalse).bind fun _ ↦
      (stmts_keeps h body ifTrue).bind fun bodyEnd ↦
      (h.close_keeps bodyEnd after).bind fun _ ↦
      (stmts_keeps h otherwise ifFalse).bind fun otherwiseEnd ↦
      (h.close_keeps otherwiseEnd after).bind fun _ ↦ moves_pure _
  | .loop cond body, block => by
    rw [stmt]
    exact (requireOpen_keeps block).bind fun _ ↦
      (h.childBlock_keeps block .whileTest).bind fun test ↦
      (h.childBlock_keeps block .whileLoop).bind fun loop ↦
      (h.childBlock_keeps block .whileAfter).bind fun after ↦
      (h.jump_keeps block test).bind fun _ ↦ (h.condition test cond).bind_keeps fun c hc ↦
      (h.branch_keeps test hc loop after).bind fun _ ↦
      (stmts_keeps h body loop).bind fun bodyEnd ↦
      (h.close_keeps bodyEnd test).bind fun _ ↦ moves_pure _
  | .eval value, block => by
    rw [stmt.eq_def]
    refine (requireOpen_keeps block).bind fun _ ↦ ?_
    cases value with
    | call ident args => exact (h.call block ident args).bind fun _ ↦ moves_pure _
    | number | text | name | binary => exact (h.expr block _).keeps.bind fun _ ↦ moves_pure _
termination_by structural s => s

theorem stmts_keeps (h : Invariant outer K Datum Bit) :
    ∀ ss block, Moves (Keeps K) (stmts outer ss block)
  | [], block => moves_pure _
  | s :: rest, block => by
    rw [stmts]
    exact (stmt_keeps h s block).bind fun next ↦ stmts_keeps h rest next
termination_by structural ss => ss

end

theorem bindParams_keeps (h : Invariant outer K Datum Bit) (block : Nat)
    {ps : List (String × Value)} (hps : ∀ p ∈ ps, Datum p.2) :
    Moves (Keeps K) (bindParams outer block ps) := by
  induction ps with
  | nil => exact moves_pure _
  | cons p rest ih =>
    obtain ⟨hp, hrest⟩ := List.forall_mem_cons.mp hps
    exact (h.assign block p.1 p.2 hp).bind fun _ ↦ ih hrest

/-- The end of a body adds a return without value where the function has no result. -/
theorem finish_keeps (h : Invariant outer K Datum Bit) (head : Prototype) (block : Nat)
    (hret : head.ret = .void → ∀ fr, K fr → K (Frame.extend fr block [.ret none])) :
    Moves (Keeps K) (finish head block) := by
  intro fr hfr
  rw [finish, bind_state_apply]
  split
  · exact hfr
  · split
    · exact h.unreachable fr block hfr
    · rw [bind_require_apply]
      split
      · next hvoid => exact hret hvoid fr hfr
      · exact hfr

end Invariant

/-! ## Changes of a frame -/

section

variable {outer : Outer} {K : Frame → Prop} {block : Nat}

theorem store_keeps_of (hextend : ∀ fr more, K fr → K (Frame.extend fr block more))
    (ident : String) (v : Value) (b : Binding) : Moves (Keeps K) (store block ident v b) := by
  intro fr hfr
  rw [store_apply]
  split
  · split
    · exact hextend fr _ hfr
    · exact hfr
  · exact hfr

theorem assign_keeps_of (hextend : ∀ fr more, K fr → K (Frame.extend fr block more))
    (hdeclare : ∀ fr ident ty, outer.globals ident = none → ty.isStorable → K fr →
      K (Frame.declare fr ident ty)) (ident : String) (v : Value) :
    Moves (Keeps K) (assign outer block ident v) := by
  intro fr hfr
  cases hlocal : fr.locals ident with
  | some b =>
    rw [assign_apply_of_some hlocal]
    exact store_keeps_of hextend ident v b fr hfr
  | none =>
    rw [assign_apply_of_none hlocal]
    split
    · next hfree =>
      split
      · next hty =>
        split
        · exact store_keeps_of hextend ident v _ _
            (hdeclare fr ident _ (Option.isNone_iff_eq_none.mp hfree) hty hfr)
        · exact hfr
      · exact hfr
    · exact hfr

theorem returnValue_keeps_of (hextend : ∀ fr more, K fr → K (Frame.extend fr block more))
    (v : Value) : Moves (Keeps K) (returnValue outer block v) := by
  intro fr hfr
  rw [returnValue, bind_state_apply, bind_require_apply]
  split
  · exact hextend fr _ hfr
  · exact hfr

end

/-- No change of a frame takes the property away, with whatever values. A change at the end of a
block is one along which the relation holds. -/
structure StableAlong (outer : Outer) (R : Tape → Tape → Prop) (K : Frame → Prop) : Prop where
  withTape : ∀ fr block t, R (fr.tape block) t → K fr → K (Frame.withTape fr block t)
  extend : ∀ fr block more, K fr → K (Frame.extend fr block more)
  child : ∀ fr block role, K fr → K (Frame.child fr block role)
  declare : ∀ fr ident ty, outer.globals ident = none → ty.isStorable → K fr →
    K (Frame.declare fr ident ty)

namespace StableAlong

variable {outer : Outer} {R : Tape → Tape → Prop} {K : Frame → Prop}

theorem within_triple {α : Type} (h : StableAlong outer R K) (block : Nat)
    {m : Env → Lowering Tape α} (hm : ∀ env, Moves R (m env)) :
    Triple K (within outer block m) (fun _ fr ↦ True ∧ K fr) K := by
  intro fr hfr
  have hmove := hm (fr.env outer) (fr.tape block)
  rw [within_apply, onBlock_apply]
  generalize m (fr.env outer) (fr.tape block) = r at hmove ⊢
  rcases r with ⟨_ | a, t⟩
  · exact h.withTape fr block t hmove hfr
  · exact ⟨trivial, h.withTape fr block t hmove hfr⟩

theorem invariant [Std.Refl R] [Trans R R R] (h : StableAlong outer R K)
    (hR : ∀ locals, Along locals R) : Invariant outer K (fun _ ↦ True) fun _ ↦ True where
  expr block e := h.within_triple block fun _ ↦ expr_along (hR _) e
  condition block e := h.within_triple block fun _ ↦ condition_along (hR _) e
  call block ident args := (h.within_triple block fun _ ↦ call_along (hR _) ident args).keeps
  assign block ident v _ := assign_keeps_of (fun fr ↦ h.extend fr block) h.declare ident v
  returnValue block v _ := returnValue_keeps_of (fun fr ↦ h.extend fr block) v
  child := h.child
  branch fr block _ _ _ _ := h.extend fr block _
  jump fr block _ := h.extend fr block _
  unreachable fr block := h.extend fr block _

end StableAlong

/-- None of the changes of a frame takes the property away, with whatever values. -/
structure Stable (outer : Outer) (K : Frame → Prop) : Prop where
  withTape : ∀ fr block t, K fr → K (Frame.withTape fr block t)
  extend : ∀ fr block more, K fr → K (Frame.extend fr block more)
  child : ∀ fr block role, K fr → K (Frame.child fr block role)
  declare : ∀ fr ident ty, outer.globals ident = none → ty.isStorable → K fr →
    K (Frame.declare fr ident ty)

theorem Stable.along {outer : Outer} {K : Frame → Prop} (h : Stable outer K)
    (R : Tape → Tape → Prop) : StableAlong outer R K :=
  ⟨fun fr block t _ ↦ h.withTape fr block t, h.extend, h.child, h.declare⟩

theorem Stable.invariant {outer : Outer} {K : Frame → Prop} (h : Stable outer K) :
    Invariant outer K (fun _ ↦ True) fun _ ↦ True :=
  (h.along Tape.Extends).invariant extends_along

end Lowering

end BlockCompiler
