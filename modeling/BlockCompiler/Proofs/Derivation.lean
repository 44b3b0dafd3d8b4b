import BlockCompiler.Proofs.Frame
import BlockCompiler.Proofs.Tape

/-!
# Lowerings that succeed

`Lowers` is the relation of a successful lowering, with one rule for each kind of statement in front
of a list. Its rules name every frame that a lowering passes through, and `lowers_of_stmts` says
that no lowering succeeds in another way. What holds of accepted programs is therefore proved by
induction on `Lowers`, where the statements of nested blocks and those behind them are premises of
one rule.

## Why lists

A single statement would need a relation of its own, defined together with the one for lists. With
the statement at the head of its list there is one relation, and the induction has one motive.
-/

namespace BlockCompiler

/-! ## Blocks of branches and loops -/

namespace Frame

/-- The frame in which the body of a conditional without alternative is lowered: the body starts in
block `fr.count`, and control goes on in the block behind it. -/
def fork (fr : Frame) (block : Nat) (cond : Value) : Frame :=
  ((fr.child block .ifTrue).child block .ifAfter).extend block
    [.branch cond fr.count (fr.count + 1)]

/-- The frame in which the bodies of a conditional are lowered: they start in block `fr.count` and
in the one behind it, and control goes on in the block behind both. -/
def forkElse (fr : Frame) (block : Nat) (cond : Value) : Frame :=
  (((fr.child block .ifTrue).child block .ifFalse).child block .ifAfter).extend block
    [.branch cond fr.count (fr.count + 1)]

/-- The frame in which the condition of a loop is lowered, in block `fr.count`. -/
def enterLoop (fr : Frame) (block : Nat) : Frame :=
  (((fr.child block .whileTest).child block .whileLoop).child block .whileAfter).extend block
    [.jump fr.count]

/-- The frame in which the body of a loop is lowered: `test` is the block of the condition, the body
starts in the block behind it, and control goes on in the block behind both. -/
def turn (fr : Frame) (test : Nat) (cond : Value) : Frame :=
  fr.extend test [.branch cond (test + 1) (test + 2)]

end Frame

namespace Lowering

section

variable {α : Type}

/-- Creating the blocks of a conditional and branching to them is one change of the frame. -/
theorem fork_bind (block : Nat) (c : Value) (k : Nat → Nat → Lowering Frame α) :
    (do
      let ifTrue ← childBlock block .ifTrue
      let after ← childBlock block .ifAfter
      onBlock block (emitPlain (.branch c ifTrue after))
      k ifTrue after) =
    (do
      let n ← updating fun fr ↦ (fr.count, fr.fork block c)
      k n (n + 1)) := by
  funext fr
  simp only [bind_apply, childBlock_apply, onBlock_emitPlain, Frame.count_child]
  rfl

theorem forkElse_bind (block : Nat) (c : Value) (k : Nat → Nat → Nat → Lowering Frame α) :
    (do
      let ifTrue ← childBlock block .ifTrue
      let ifFalse ← childBlock block .ifFalse
      let after ← childBlock block .ifAfter
      onBlock block (emitPlain (.branch c ifTrue ifFalse))
      k ifTrue ifFalse after) =
    (do
      let n ← updating fun fr ↦ (fr.count, fr.forkElse block c)
      k n (n + 1) (n + 2)) := by
  funext fr
  simp only [bind_apply, childBlock_apply, onBlock_emitPlain, Frame.count_child]
  rfl

theorem enterLoop_bind (block : Nat) (k : Nat → Nat → Nat → Lowering Frame α) :
    (do
      let test ← childBlock block .whileTest
      let loop ← childBlock block .whileLoop
      let after ← childBlock block .whileAfter
      onBlock block (emitPlain (.jump test))
      k test loop after) =
    (do
      let n ← updating fun fr ↦ (fr.count, fr.enterLoop block)
      k n (n + 1) (n + 2)) := by
  funext fr
  simp only [bind_apply, childBlock_apply, onBlock_emitPlain, Frame.count_child]
  rfl

end

/-! ## Assignments -/

theorem address_apply {σ : Type} (ident : String) (b : Binding) (s : σ) :
    address ident b s =
      (if b.value.kind = .pointer then .ok b.value else .error (.notWritable ident), s) := by
  rw [address, bind_require_apply]
  split <;> rfl

theorem store_apply (block : Nat) (ident : String) (value : Value) (b : Binding) (fr : Frame) :
    store block ident value b fr =
      if b.value.kind = .pointer then
        if b.ty = value.ty then (.ok (), fr.extend block [.store value b.value])
        else (.error (.storeMismatch ident), fr)
      else (.error (.notWritable ident), fr) := by
  rw [store, bind_apply, address_apply]
  by_cases h : b.value.kind = .pointer
  · rw [if_pos h, if_pos h]
    exact bind_require_apply _ _ _ _
  · rw [if_neg h, if_neg h]

theorem assign_apply_of_some {outer : Outer} {block : Nat} {ident : String} {value : Value}
    {fr : Frame} {b : Binding} (h : fr.locals ident = some b) :
    assign outer block ident value fr = store block ident value b fr := by
  rw [assign, bind_state_apply, h]

theorem assign_apply_of_none {outer : Outer} {block : Nat} {ident : String} {value : Value}
    {fr : Frame} (h : fr.locals ident = none) :
    assign outer block ident value fr =
      if (outer.globals ident).isNone then
        if value.ty.isStorable then
          if fr.function.blocks ≠ [] then
            store block ident value ⟨.slot fr.function.slots.length value.ty, value.ty⟩
              (fr.declare ident value.ty)
          else (.error .noEntryBlock, fr)
        else (.error (.notStorable value.ty ident), fr)
      else (.error (.constantWritten ident), fr) := by
  rw [assign, bind_state_apply, h]
  simp only [bind_require_apply, newSlot, bind_assoc, bind_state_apply]
  rfl

/-- How an assignment succeeds: it stores in the slot of a local of the same type, or in a new slot
if the name is neither local nor a global constant. -/
inductive Assigns (outer : Outer) (block : Nat) (ident : String) (value : Value) :
    Frame → Frame → Prop
  | known {fr : Frame} {b : Binding} (bound : fr.locals ident = some b)
      (pointer : b.value.kind = .pointer) (sameTy : b.ty = value.ty) :
      Assigns outer block ident value fr (fr.extend block [.store value b.value])
  | first {fr : Frame} (unbound : fr.locals ident = none) (free : outer.globals ident = none)
      (storable : value.ty.isStorable) (hasEntry : fr.function.blocks ≠ []) :
      Assigns outer block ident value fr ((fr.declare ident value.ty).extend block
        [.store value (.slot fr.function.slots.length value.ty)])

theorem assigns_of_assign {outer : Outer} {block : Nat} {ident : String} {value : Value}
    {fr fr' : Frame} (h : assign outer block ident value fr = (.ok (), fr')) :
    Assigns outer block ident value fr fr' := by
  cases hlocal : fr.locals ident with
  | some b =>
    rw [assign_apply_of_some hlocal, store_apply] at h
    split at h
    · next hkind =>
      split at h
      · next hty =>
        obtain rfl := (Prod.mk.inj h).2
        exact .known hlocal hkind hty
      · exact absurd (Prod.mk.inj h).1 (by simp)
    · exact absurd (Prod.mk.inj h).1 (by simp)
  | none =>
    rw [assign_apply_of_none hlocal] at h
    split at h
    · next hfree =>
      split at h
      · next hty =>
        split at h
        · next hentry =>
          simp only [store_apply, Value.kind, ↓reduceIte] at h
          obtain rfl := (Prod.mk.inj h).2
          exact .first hlocal (Option.isNone_iff_eq_none.mp hfree) hty hentry
        · exact absurd (Prod.mk.inj h).1 (by simp)
      · exact absurd (Prod.mk.inj h).1 (by simp)
    · exact absurd (Prod.mk.inj h).1 (by simp)

/-! ## Statements -/

/-- The declared type of the result that a return is checked against. -/
def declaredRet (outer : Outer) (fr : Frame) : Option Ty :=
  (outer.signatures.find? (·.ident = fr.function.signature.symbol)).map Signature.ret

/-- Statements are lowered at the end of a block, and control goes on in the last block. -/
inductive Lowers (outer : Outer) : List Stmt → Nat → Frame → Nat → Frame → Prop
  | nil {block : Nat} {fr : Frame} : Lowers outer [] block fr block fr
  | assign {ident : String} {value : Expr} {rest : List Stmt} {block next : Nat} {v : Value}
      {t : Tape} {fr fr₁ fr' : Frame}
      (isOpen : fr.function.isTerminated block = false)
      (valueOk : expr (fr.env outer) value (fr.tape block) = (.ok v, t))
      (assigned : Assigns outer block ident v (fr.withTape block t) fr₁)
      (restOk : Lowers outer rest block fr₁ next fr') :
      Lowers outer (.assign ident value :: rest) block fr next fr'
  | ret {value : Expr} {rest : List Stmt} {block next : Nat} {v : Value} {t : Tape}
      {fr fr' : Frame}
      (isOpen : fr.function.isTerminated block = false)
      (valueOk : expr (fr.env outer) value (fr.tape block) = (.ok v, t))
      (declared : declaredRet outer fr = some v.ty)
      (restOk : Lowers outer rest block
        ((fr.withTape block t).extend block [.ret (some v)]) next fr') :
      Lowers outer (.ret value :: rest) block fr next fr'
  | ifThen {cond : Expr} {body rest : List Stmt} {block bodyEnd next : Nat} {c : Value} {t : Tape}
      {fr fr₁ fr' : Frame}
      (isOpen : fr.function.isTerminated block = false)
      (condOk : condition (fr.env outer) cond (fr.tape block) = (.ok c, t))
      (bodyOk : Lowers outer body fr.count ((fr.withTape block t).fork block c) bodyEnd fr₁)
      (restOk : Lowers outer rest (fr.count + 1) (fr₁.close bodyEnd (fr.count + 1)) next fr') :
      Lowers outer (.ifThen cond body :: rest) block fr next fr'
  | ifElse {cond : Expr} {body otherwise rest : List Stmt}
      {block bodyEnd otherwiseEnd next : Nat} {c : Value} {t : Tape} {fr fr₁ fr₂ fr' : Frame}
      (isOpen : fr.function.isTerminated block = false)
      (condOk : condition (fr.env outer) cond (fr.tape block) = (.ok c, t))
      (bodyOk : Lowers outer body fr.count ((fr.withTape block t).forkElse block c) bodyEnd fr₁)
      (otherwiseOk : Lowers outer otherwise (fr.count + 1)
        (fr₁.close bodyEnd (fr.count + 2)) otherwiseEnd fr₂)
      (restOk : Lowers outer rest (fr.count + 2)
        (fr₂.close otherwiseEnd (fr.count + 2)) next fr') :
      Lowers outer (.ifElse cond body otherwise :: rest) block fr next fr'
  | loop {cond : Expr} {body rest : List Stmt} {block bodyEnd next : Nat} {c : Value} {t : Tape}
      {fr fr₁ fr' : Frame}
      (isOpen : fr.function.isTerminated block = false)
      (condOk : condition (fr.env outer) cond ((fr.enterLoop block).tape fr.count) = (.ok c, t))
      (bodyOk : Lowers outer body (fr.count + 1)
        (((fr.enterLoop block).withTape fr.count t).turn fr.count c) bodyEnd fr₁)
      (restOk : Lowers outer rest (fr.count + 2) (fr₁.close bodyEnd fr.count) next fr') :
      Lowers outer (.loop cond body :: rest) block fr next fr'
  | call {ident : String} {args : List Expr} {rest : List Stmt} {block next : Nat}
      {v : Option Value} {t : Tape} {fr fr' : Frame}
      (isOpen : fr.function.isTerminated block = false)
      (callOk : Lowering.call (fr.env outer) ident args (fr.tape block) = (.ok v, t))
      (restOk : Lowers outer rest block (fr.withTape block t) next fr') :
      Lowers outer (.eval (.call ident args) :: rest) block fr next fr'
  | eval {value : Expr} {rest : List Stmt} {block next : Nat} {v : Value} {t : Tape}
      {fr fr' : Frame}
      (notCall : ∀ ident args, value ≠ .call ident args)
      (isOpen : fr.function.isTerminated block = false)
      (valueOk : expr (fr.env outer) value (fr.tape block) = (.ok v, t))
      (restOk : Lowers outer rest block (fr.withTape block t) next fr') :
      Lowers outer (.eval value :: rest) block fr next fr'

theorem within_eq_ok_iff {α : Type} {outer : Outer} {block : Nat} {m : Env → Lowering Tape α}
    {fr fr' : Frame} {a : α} : within outer block m fr = (.ok a, fr') ↔
      ∃ t, m (fr.env outer) (fr.tape block) = (.ok a, t) ∧ fr' = fr.withTape block t := by
  rw [within_apply, onBlock_apply]
  rcases m (fr.env outer) (fr.tape block) with ⟨_ | a', t⟩
  · simp
  · simp only [Prod.mk.injEq, Except.ok.injEq]
    constructor
    · rintro ⟨rfl, rfl⟩
      exact ⟨t, ⟨rfl, rfl⟩, rfl⟩
    · rintro ⟨_, ⟨rfl, rfl⟩, rfl⟩
      exact ⟨rfl, rfl⟩

theorem requireOpen_bind_eq_ok_iff {α : Type} {block : Nat} {m : Unit → Lowering Frame α}
    {fr fr' : Frame} {a : α} : (requireOpen block >>= m) fr = (.ok a, fr') ↔
      fr.function.isTerminated block = false ∧ m () fr = (.ok a, fr') := by
  rw [requireOpen, bind_assoc, bind_state_apply, bind_require_apply]
  split
  · next h => simp [h]
  · next h => simp [h]

/-- A statement that starts with an expression: its block is open, the expression is accepted, and
the rest goes on behind what the expression appended. -/
theorem open_within_eq_ok_iff {α β : Type} {outer : Outer} {block : Nat}
    {m : Env → Lowering Tape α} {k : α → Lowering Frame β} {fr fr' : Frame} {b : β} :
    (do
      requireOpen block
      let a ← within outer block m
      k a) fr = (.ok b, fr') ↔
    fr.function.isTerminated block = false ∧
      ∃ a t, m (fr.env outer) (fr.tape block) = (.ok a, t) ∧
        k a (fr.withTape block t) = (.ok b, fr') := by
  refine requireOpen_bind_eq_ok_iff.trans (and_congr_right fun _ ↦ bind_eq_ok_iff.trans ?_)
  constructor
  · rintro ⟨a, fr₁, hwithin, hk⟩
    obtain ⟨t, hm, rfl⟩ := within_eq_ok_iff.mp hwithin
    exact ⟨a, t, hm, hk⟩
  · rintro ⟨a, t, hm, hk⟩
    exact ⟨a, _, within_eq_ok_iff.mpr ⟨t, hm, rfl⟩, hk⟩

theorem returnValue_eq_ok_iff {outer : Outer} {block : Nat} {v : Value} {fr fr' : Frame} :
    returnValue outer block v fr = (.ok (), fr') ↔
      declaredRet outer fr = some v.ty ∧ fr' = fr.extend block [.ret (some v)] := by
  rw [returnValue, bind_state_apply, bind_require_apply, ← declaredRet]
  split
  · next h => simp [h, onBlock_emitPlain, eq_comm]
  · next h => simp [h]

theorem updating_eq_ok_iff {σ α : Type} {f : σ → α × σ} {s s' : σ} {a : α} :
    updating f s = (.ok a, s') ↔ f s = (a, s') := by
  unfold updating
  rcases f s with ⟨_, _⟩
  simp

/-- The end of a nested body, and what stands behind the statement. -/
theorem body_eq_ok_iff {m : Lowering Frame Nat} {target after : Nat} {fr fr' : Frame} {next : Nat} :
    (do
      let bodyEnd ← m
      close bodyEnd target
      pure after) fr = (.ok next, fr') ↔
    ∃ bodyEnd fr₁, m fr = (.ok bodyEnd, fr₁) ∧ next = after ∧ fr' = fr₁.close bodyEnd target := by
  simp only [bind_eq_ok_iff, close_apply, pure_apply, Prod.mk.injEq, Except.ok.injEq]
  constructor
  · rintro ⟨bodyEnd, fr₁, hm, _, _, ⟨-, rfl⟩, rfl, rfl⟩
    exact ⟨bodyEnd, fr₁, hm, rfl, rfl⟩
  · rintro ⟨bodyEnd, fr₁, hm, rfl, rfl⟩
    exact ⟨bodyEnd, fr₁, hm, (), _, ⟨trivial, rfl⟩, rfl, rfl⟩

theorem lowers_of_eval {outer : Outer} {value : Expr} {rest : List Stmt} {block m next : Nat}
    {fr fr₁ fr' : Frame} (hcall : ∀ ident args, value ≠ .call ident args)
    (h : stmt outer (.eval value) block fr = (.ok m, fr₁))
    (hrest : Lowers outer rest m fr₁ next fr') :
    Lowers outer (.eval value :: rest) block fr next fr' := by
  rw [stmt] at h
  · obtain ⟨hopen, v, t, hvalue, h⟩ := open_within_eq_ok_iff.mp h
    obtain ⟨⟨⟩, rfl⟩ := Prod.mk.inj h
    exact .eval hcall hopen hvalue hrest
  · exact hcall

mutual

theorem lowers_of_stmt {outer : Outer} : ∀ (s : Stmt) {rest : List Stmt} {block m next : Nat}
    {fr fr₁ fr' : Frame}, stmt outer s block fr = (.ok m, fr₁) →
      Lowers outer rest m fr₁ next fr' → Lowers outer (s :: rest) block fr next fr'
  | .assign ident value, _, _, _, _, _, _, _, h, hrest => by
    rw [stmt] at h
    obtain ⟨hopen, v, t, hvalue, h⟩ := open_within_eq_ok_iff.mp h
    obtain ⟨_, _, hassign, h⟩ := bind_eq_ok_iff.mp h
    obtain ⟨⟨⟩, rfl⟩ := Prod.mk.inj h
    exact .assign hopen hvalue (assigns_of_assign hassign) hrest
  | .ret value, _, _, _, _, _, _, _, h, hrest => by
    rw [stmt] at h
    obtain ⟨hopen, v, t, hvalue, h⟩ := open_within_eq_ok_iff.mp h
    obtain ⟨_, _, hret, h⟩ := bind_eq_ok_iff.mp h
    obtain ⟨⟨⟩, rfl⟩ := Prod.mk.inj h
    obtain ⟨hdeclared, rfl⟩ := returnValue_eq_ok_iff.mp hret
    exact .ret hopen hvalue hdeclared hrest
  | .ifThen cond body, _, _, _, _, _, _, _, h, hrest => by
    rw [stmt] at h
    obtain ⟨hopen, c, t, hcond, h⟩ := open_within_eq_ok_iff.mp h
    rw [fork_bind] at h
    obtain ⟨_, _, hfork, h⟩ := bind_eq_ok_iff.mp h
    obtain ⟨rfl, rfl⟩ := Prod.mk.inj (updating_eq_ok_iff.mp hfork)
    obtain ⟨bodyEnd, fr₁, hbody, rfl, rfl⟩ := body_eq_ok_iff.mp h
    rw [Frame.count_withTape] at hbody hrest
    exact .ifThen hopen hcond (lowers_of_stmts body hbody) hrest
  | .ifElse cond body otherwise, _, _, _, _, _, _, _, h, hrest => by
    rw [stmt] at h
    obtain ⟨hopen, c, t, hcond, h⟩ := open_within_eq_ok_iff.mp h
    rw [forkElse_bind] at h
    obtain ⟨_, _, hfork, h⟩ := bind_eq_ok_iff.mp h
    obtain ⟨rfl, rfl⟩ := Prod.mk.inj (updating_eq_ok_iff.mp hfork)
    obtain ⟨bodyEnd, fr₁, hbody, h⟩ := bind_eq_ok_iff.mp h
    obtain ⟨_, _, hclose, h⟩ := bind_eq_ok_iff.mp h
    rw [close_apply] at hclose
    obtain rfl := (Prod.mk.inj hclose).2
    obtain ⟨otherwiseEnd, fr₂, hotherwise, rfl, rfl⟩ := body_eq_ok_iff.mp h
    rw [Frame.count_withTape] at hbody hotherwise hrest
    exact .ifElse hopen hcond (lowers_of_stmts body hbody) (lowers_of_stmts otherwise hotherwise)
      hrest
  | .loop cond body, _, _, _, _, _, _, _, h, hrest => by
    rw [stmt] at h
    obtain ⟨hopen, h⟩ := requireOpen_bind_eq_ok_iff.mp h
    -- The condition comes behind the jump, in a block of its own.
    rw [enterLoop_bind] at h
    obtain ⟨_, _, henter, h⟩ := bind_eq_ok_iff.mp h
    obtain ⟨rfl, rfl⟩ := Prod.mk.inj (updating_eq_ok_iff.mp henter)
    obtain ⟨c, _, hwithin, h⟩ := bind_eq_ok_iff.mp h
    obtain ⟨t, hcond, rfl⟩ := within_eq_ok_iff.mp hwithin
    obtain ⟨_, _, hbranch, h⟩ := bind_eq_ok_iff.mp h
    rw [onBlock_emitPlain] at hbranch
    obtain rfl := (Prod.mk.inj hbranch).2
    obtain ⟨bodyEnd, fr₁, hbody, rfl, rfl⟩ := body_eq_ok_iff.mp h
    exact .loop hopen hcond (lowers_of_stmts body hbody) hrest
  | .eval (.call ident args), _, _, _, _, _, _, _, h, hrest => by
    rw [stmt] at h
    obtain ⟨hopen, v, t, hcall, h⟩ := open_within_eq_ok_iff.mp h
    obtain ⟨⟨⟩, rfl⟩ := Prod.mk.inj h
    exact .call hopen hcall hrest
  | .eval (.number _), _, _, _, _, _, _, _, h, hrest => lowers_of_eval nofun h hrest
  | .eval (.text _), _, _, _, _, _, _, _, h, hrest => lowers_of_eval nofun h hrest
  | .eval (.name _), _, _, _, _, _, _, _, h, hrest => lowers_of_eval nofun h hrest
  | .eval (.binary _ _ _), _, _, _, _, _, _, _, h, hrest => lowers_of_eval nofun h hrest
termination_by structural s => s

theorem lowers_of_stmts {outer : Outer} : ∀ (ss : List Stmt) {block next : Nat} {fr fr' : Frame},
    stmts outer ss block fr = (.ok next, fr') → Lowers outer ss block fr next fr'
  | [], _, _, _, _, h => by
    rw [stmts] at h
    obtain ⟨⟨⟩, rfl⟩ := Prod.mk.inj h
    exact .nil
  | s :: rest, _, _, _, _, h => by
    rw [stmts] at h
    obtain ⟨m, fr₁, hs, hrest⟩ := bind_eq_ok_iff.mp h
    exact lowers_of_stmt s hs (lowers_of_stmts rest hrest)
termination_by structural ss => ss

end

end Lowering

end BlockCompiler
