import BlockCompiler.Proofs.ControlFlow
import BlockCompiler.Proofs.Register

/-!
# Modules that pass verification

A verifier of modules tests each function for itself: that its blocks are a graph with one entry,
that definitions precede uses, that operands fit their instructions, and that slots and parameters
are of types that values have (`Context.WellFormed`). A module obeys these rules if all declarations
that led to it were accepted.

All but the first of the rules hold of every module that declarations lead to. The first does not: a
body that is refused half-way leaves blocks without an end.
-/

namespace BlockCompiler

namespace Context

/-- Every function is a graph of basic blocks, or only declared. -/
def Finished (c : Context) : Prop := ∀ f ∈ c.functions, f.blocks = [] ∨ f.WellFormed

/-- Every slot is for values that take up storage. -/
def Stores (c : Context) : Prop := ∀ f ∈ c.functions, ∀ s ∈ f.slots, s.ty.isStorable

/-- The rules that a finished module obeys. -/
structure WellFormed (c : Context) : Prop where
  functions : c.Finished
  operands : c.Scoped
  types : c.WellTyped
  slots : c.Stores
  params : ∀ f ∈ c.functions, f.params.map Param.ty = f.signature.params
  symbols : (c.signatures.map Signature.symbol).Nodup

variable {c c' : Context} {ds : List Decl}

/-! ## Slots -/

theorem stores_stable (outer : Outer) :
    Lowering.Stable outer fun fr ↦ ∀ s ∈ fr.function.slots, s.ty.isStorable where
  withTape _ _ _ h := h
  extend _ _ _ h := h
  child _ _ _ h := h
  declare fr ident ty _ hty h := by
    intro s hs
    rcases List.mem_append.mp hs with hs | hs
    · exact h s hs
    · rw [List.mem_singleton.mp hs]
      exact hty

theorem Stores.withFrame {id : Nat} {fr : Frame} (h : c.Stores)
    (hfr : ∀ s ∈ fr.function.slots, s.ty.isStorable) : (c.withFrame id fr).Stores := by
  intro f hf
  rcases List.mem_or_eq_of_mem_set hf with hf | rfl
  · exact h f hf
  · exact hfr

theorem decl_stores : ∀ d, Lowering.Moves (Lowering.Keeps Stores) (Lowering.decl d) := by
  refine Lowering.decl_moves ?_ ?_ fun _ _ _ _ h ↦ h
  · intro c head _ h f hf
    rcases List.mem_append.mp hf with hf | hf
    · exact h f hf
    · rw [List.mem_singleton.mp hf]
      exact nofun
  · intro c id f head ss hf _ _ h
    exact h.withFrame ((stores_stable c.outer).invariant.body_keeps (h f (List.mem_of_getElem? hf))
      (fun _ _ ↦ trivial) (fun _ _ _ h ↦ h) fun _ h ↦ h)

theorem stores_after (ds : List Decl) : (after ds).Stores :=
  after_induction (P := Stores) nofun (fun c d ↦ decl_stores d c) ds

/-! ## Functions -/

theorem Finished.declares {head : Prototype} {id : Nat} (h : c.Finished)
    (hdeclares : Lowering.Declares c head id c') : c'.Finished := by
  refine hdeclares.keeps (fun _ h f hf ↦ ?_) h
  rcases List.mem_append.mp hf with hf | hf
  · exact h f hf
  · exact .inl (List.mem_singleton.mp hf ▸ rfl)

/-- A declaration that is accepted finishes what it begins. -/
theorem Finished.decl {d : Decl} (h : c.Finished) (hd : Lowering.decl d c = (.ok (), c')) :
    c'.Finished := by
  have heffect := Lowering.effect_decl d c
  rw [hd] at heffect
  cases heffect with
  | declared _ declares => exact h.declares declares
  | begun _ declares at? _ noBody lowered =>
    obtain ⟨bound, last, loweredTo, finished, hbody, rfl⟩ := Lowering.lowersBody_of_body lowered
    have hformed : finished.function.WellFormed := Lowering.wellFormed_of_lowersBody hbody noBody
    intro f hf
    rcases List.mem_or_eq_of_mem_set hf with hf | rfl
    · exact h.declares declares f hf
    · exact .inr hformed
  | bound => exact h

theorem Finished.accepts (h : c.Finished) (haccepts : Accepts c ds c') : c'.Finished := by
  induction haccepts with
  | nil => exact h
  | cons accepted _ ih => exact ih (h.decl accepted)

/-! ## Modules -/

/-- The parameters of a function are those that are declared. -/
theorem Registers.params {heads : List Prototype} (h : c.Registers heads) :
    ∀ f ∈ c.functions, f.params.map Param.ty = f.signature.params := by
  have hparams := h.functions.imp fun f head hdeclared ↦
    And.intro (hdeclared.types.trans hdeclared.params.symm) hdeclared
  exact ((List.forall₂_and_left _ _).mp hparams).1

/-- Declarations from a source text that are all accepted lead to a module that obeys the rules. -/
theorem wellFormed_of_accepts (hparsed : ∀ d ∈ ds, d.Parsed) (h : Accepts .empty ds c) :
    c.WellFormed where
  functions := Finished.accepts (fun _ hf ↦ absurd hf List.not_mem_nil) h
  operands := h.eq_foldl ▸ (Lowering.scoped_and_numeric_after ds).1
  types := h.eq_foldl ▸ Lowering.wellTyped_after hparsed
  slots := h.eq_foldl ▸ stores_after ds
  params := h.eq_foldl ▸ (registers_after hparsed).params
  symbols := h.eq_foldl ▸ (Lowering.consistent_after ds).symbols

end Context

end BlockCompiler
