import BlockCompiler.Code.Listing
import BlockCompiler.Proofs.Frame

/-!
# What stands in a block

Slots are set up at the head of the entry, the latest one first, and are kept apart from its
instructions. Seen as one list they are the contents of a block, and a listing shows just these,
line by line (`Function.listing_eq_contents`).
-/

namespace BlockCompiler

namespace Function

variable {f : Function} {block : Nat}

/-- What stands in a block, in this order. -/
def contents (f : Function) (block : Nat) : List (Slot ⊕ Instr) :=
  (if block = 0 then f.slots.reverse.map .inl else []) ++ (f.code block).map .inr

theorem contents_entry : f.contents 0 = f.slots.reverse.map .inl ++ (f.code 0).map .inr := rfl

theorem contents_of_ne (h : block ≠ 0) : f.contents block = (f.code block).map .inr := by
  rw [contents, if_neg h, List.nil_append]

/-- The number of the first instruction of a block in listings. -/
def firstNumber (f : Function) (block : Nat) : Nat :=
  f.slots.length + ((f.blocks.take block).flatMap Block.code).length

theorem getElem?_listedBlocks (f : Function) (start : Nat) (bs : List Block) (k : Nat) :
    (f.listedBlocks start bs)[k]? = bs[k]?.map fun b ↦ ⟨b.name,
      b.code.map (Instr.listed f (start + ((bs.take k).flatMap Block.code).length))⟩ := by
  induction bs generalizing start k with
  | nil => rfl
  | cons b rest ih =>
    cases k with
    | zero => rfl
    | succ k =>
      rw [listedBlocks, List.getElem?_cons_succ, List.getElem?_cons_succ, ih]
      simp [Nat.add_assoc]

/-- A listing has a line for each slot and each instruction, in the order in which they stand in
their block. -/
theorem listing_eq_contents {b : Block} (h : f.blocks[block]? = some b) :
    f.listing.blocks[block]? = some ⟨b.name,
      (f.contents block).map (Sum.elim Slot.listed (Instr.listed f (f.firstNumber block)))⟩ := by
  have hlines := getElem?_listedBlocks f f.slots.length f.blocks block
  rw [h, Option.map_some, ← code_of_getElem? h, ← firstNumber] at hlines
  rw [listing]
  cases hall : f.listedBlocks f.slots.length f.blocks with
  | nil =>
    rw [hall] at hlines
    exact absurd hlines nofun
  | cons entry rest =>
    rw [hall] at hlines
    cases block with
    | zero =>
      obtain rfl := Option.some.inj hlines
      simp [contents_entry, Function.comp_def]
    | succ k =>
      rw [contents_of_ne (Nat.succ_ne_zero k), List.map_map]
      exact hlines

end Function

end BlockCompiler
