import BlockCompiler.Proofs.Declaration

/-!
# Locals and their slots

While a body is lowered, each local is bound to a slot that was set up under its name and for its
type, and no local has the name of a global constant (`Frame.Housed`). Statements that are refused
keep this as well: whether a name is free is tested before a slot is set up for it, and the name is
bound as soon as the slot is there.
-/

namespace BlockCompiler

/-- The binding is the one of a local: it leads to the slot that the function has for the name. -/
def Function.Houses (f : Function) (ident : String) (b : Binding) : Prop :=
  b.ty.isStorable ∧ ∃ index, b.value = .slot index b.ty ∧ f.slots[index]? = some ⟨ident, b.ty⟩

/-- The function has its entry, and its locals have slots and are no global constants. -/
structure Frame.Housed (outer : Outer) (fr : Frame) : Prop where
  entry : fr.function.blocks ≠ []
  locals : ∀ ident b, fr.locals ident = some b → fr.function.Houses ident b
  constants : ∀ ident, (fr.locals ident).isSome → outer.globals ident = none

namespace Frame.Housed

variable {outer : Outer} {fr : Frame} {block : Nat}

/-- A change that touches neither the slots nor the locals. -/
theorem of_eq {fr' : Frame} (h : fr.Housed outer) (hcount : fr.count ≤ fr'.count)
    (hslots : fr'.function.slots = fr.function.slots) (hlocals : fr'.locals = fr.locals) :
    fr'.Housed outer := by
  refine ⟨?_, fun ident b hb ↦ ?_, fun ident hbound ↦ ?_⟩
  · have hpos := List.length_pos_iff.mpr h.entry
    exact List.length_pos_iff.mp (Nat.lt_of_lt_of_le hpos hcount)
  · rw [Function.Houses, hslots]
    exact h.locals ident b (hlocals ▸ hb)
  · exact h.constants ident (hlocals ▸ hbound)

theorem withTape {t : Tape} (h : fr.Housed outer) : (fr.withTape block t).Housed outer :=
  h.of_eq (Nat.le_of_eq count_withTape.symm) rfl rfl

theorem extend {more : List Instr} (h : fr.Housed outer) : (fr.extend block more).Housed outer :=
  h.of_eq (Nat.le_of_eq count_extend.symm) rfl rfl

theorem child {role : Role} (h : fr.Housed outer) : (fr.child block role).Housed outer :=
  h.of_eq (by simp) rfl rfl

theorem declare {ident : String} {ty : Ty} (h : fr.Housed outer)
    (hfree : outer.globals ident = none) (hty : ty.isStorable) :
    (fr.declare ident ty).Housed outer := by
  refine ⟨h.entry, fun x b hb ↦ ?_, fun x hbound ↦ ?_⟩
  · change (if x = ident then some _ else fr.locals x) = some b at hb
    split at hb
    · next hx =>
      obtain rfl := Option.some.inj hb
      exact ⟨hty, _, rfl, hx ▸ List.getElem?_concat_length⟩
    · obtain ⟨hstorable, index, hvalue, hslot⟩ := h.locals x b hb
      exact ⟨hstorable, index, hvalue, getElem?_of_prefix (List.prefix_append _ _) hslot⟩
  · change (if x = ident then some _ else fr.locals x).isSome at hbound
    split at hbound
    · next hx => exact hx ▸ hfree
    · exact h.constants x hbound

/-- A body starts without locals. -/
theorem enter (outer : Outer) (fr : Frame) (head : Prototype) : (fr.enter head).Housed outer :=
  ⟨by simp [← List.length_pos_iff], nofun, nofun⟩

end Frame.Housed

namespace Lowering

theorem housed_invariant (outer : Outer) :
    Invariant outer (Frame.Housed outer) (fun _ ↦ True) fun _ ↦ True :=
  Stable.invariant
    { withTape := fun _ _ _ h ↦ h.withTape
      extend := fun _ _ _ h ↦ h.extend
      child := fun _ _ _ h ↦ h.child
      declare := fun _ _ _ hfree hty h ↦ h.declare hfree hty }

end Lowering

end BlockCompiler
