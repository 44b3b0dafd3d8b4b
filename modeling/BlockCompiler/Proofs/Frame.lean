import BlockCompiler.Lowering.Decl

/-!
# Functions under construction

The lowering of a body changes its function in few ways: it appends instructions to a block, appends
an empty block, sets up a slot. Here each change is given by the code of the blocks after it. A
block that does not exist has no code, so that a new block changes the code of no block at all; what
is said about the code of *every* block then needs no side condition on numbers of blocks.
-/

namespace BlockCompiler

/-! ## The code of a function -/

namespace Function

variable {f : Function}

theorem code_of_getElem? {b : Nat} {block : Block} (h : f.blocks[b]? = some block) :
    f.code b = block.code := by
  rw [code, h, Option.map_some, Option.getD_some]

theorem code_of_le {b : Nat} (h : f.blocks.length ≤ b) : f.code b = [] := by
  rw [code, List.getElem?_eq_none h, Option.map_none, Option.getD_none]

/-- Only a block of the function has instructions. -/
theorem lt_of_mem_code {b : Nat} {i : Instr} (h : i ∈ f.code b) : b < f.blocks.length := by
  refine Nat.lt_of_not_le fun hle ↦ ?_
  rw [code_of_le hle] at h
  exact absurd h List.not_mem_nil

theorem mem_targets_iff {x : Nat} : x ∈ f.targets ↔ ∃ b, ∃ i ∈ f.code b, x ∈ i.targets := by
  simp only [targets, List.mem_flatMap]
  constructor
  · rintro ⟨block, hblock, i, hi, hx⟩
    obtain ⟨b, hb⟩ := List.getElem?_of_mem hblock
    exact ⟨b, i, by rwa [code_of_getElem? hb], hx⟩
  · rintro ⟨b, i, hi, hx⟩
    have hb := List.getElem?_eq_getElem (lt_of_mem_code hi)
    rw [code_of_getElem? hb] at hi
    exact ⟨_, List.getElem_mem _, i, hi, hx⟩

theorem isTerminated_eq (f : Function) (b : Nat) :
    f.isTerminated b = (f.code b).getLast?.any Instr.isTerminator := by
  rw [isTerminated]
  cases hb : f.blocks[b]? with
  | none => rw [code_of_le (List.getElem?_eq_none_iff.mp hb)]; rfl
  | some block => rw [code_of_getElem? hb]; rfl

/-! ## Changes of a function -/

/-- The function with instructions appended to a block. -/
def extend (f : Function) (block : Nat) (more : List Instr) : Function :=
  f.setCode block (f.code block ++ more)

/-- The function with an empty block appended. -/
def addBlock (f : Function) (wanted : String) : Function :=
  { f with
    blocks := f.blocks ++ [⟨(f.names.add "" wanted).1, []⟩]
    names := (f.names.add "" wanted).2 }

variable {b : Nat} {more : List Instr} {wanted : String}

@[simp] theorem signature_setCode (code : List Instr) :
    (f.setCode b code).signature = f.signature := rfl

@[simp] theorem params_setCode (code : List Instr) : (f.setCode b code).params = f.params := rfl

@[simp] theorem slots_setCode (code : List Instr) : (f.setCode b code).slots = f.slots := rfl

@[simp] theorem length_setCode (code : List Instr) :
    (f.setCode b code).blocks.length = f.blocks.length := by
  simp [setCode]

/-- Blocks keep their names. -/
@[simp] theorem map_name_setCode (code : List Instr) :
    (f.setCode b code).blocks.map Block.name = f.blocks.map Block.name := by
  refine List.ext_getElem? fun i ↦ ?_
  rw [setCode, List.getElem?_map, List.getElem?_modify, List.getElem?_map]
  split
  · rw [Option.map_eq_map, Option.map_map]
    rfl
  · exact congrArg _ (id_map _)

@[simp] theorem signature_extend : (f.extend b more).signature = f.signature := rfl

@[simp] theorem params_extend : (f.extend b more).params = f.params := rfl

@[simp] theorem slots_extend : (f.extend b more).slots = f.slots := rfl

@[simp] theorem length_extend : (f.extend b more).blocks.length = f.blocks.length :=
  length_setCode _

theorem code_extend (h : b < f.blocks.length) : (f.extend b more).code b = f.code b ++ more :=
  code_setCode h _

theorem code_extend_of_ne {x : Nat} (h : x ≠ b) : (f.extend b more).code x = f.code x :=
  code_setCode_of_ne h _

@[simp] theorem signature_addBlock : (f.addBlock wanted).signature = f.signature := rfl

@[simp] theorem params_addBlock : (f.addBlock wanted).params = f.params := rfl

@[simp] theorem slots_addBlock : (f.addBlock wanted).slots = f.slots := rfl

@[simp] theorem length_addBlock : (f.addBlock wanted).blocks.length = f.blocks.length + 1 := by
  simp [addBlock]

/-- A new block is empty, and so is a block that does not exist. -/
@[simp] theorem code_addBlock (x : Nat) : (f.addBlock wanted).code x = f.code x := by
  rcases Nat.lt_trichotomy x f.blocks.length with h | h | h
  · simp only [addBlock, code, List.getElem?_append_left h]
  · subst h
    rw [code_of_le (Nat.le_refl _)]
    simp [addBlock, code]
  · rw [code_of_le (Nat.le_of_lt h), code_of_le (by rw [length_addBlock]; omega)]

end Function

/-! ## Changes of a frame -/

namespace Frame

variable {fr : Frame} {b parent target : Nat} {role : Role} {more : List Instr}

abbrev count (fr : Frame) : Nat := fr.function.blocks.length

abbrev code (fr : Frame) (block : Nat) : List Instr := fr.function.code block

/-- What a step at the end of a block works on. -/
def tape (fr : Frame) (block : Nat) : Tape := ⟨fr.code block, fr.symbols⟩

/-- The frame after a step at the end of a block. -/
def withTape (fr : Frame) (block : Nat) (t : Tape) : Frame :=
  { fr with function := fr.function.setCode block t.code, symbols := t.symbols }

def extend (fr : Frame) (block : Nat) (more : List Instr) : Frame :=
  { fr with function := fr.function.extend block more }

/-- The frame with a block for a role appended. -/
def child (fr : Frame) (parent : Nat) (role : Role) : Frame :=
  { fr with
    function := fr.function.addBlock
      (role.text ++ "_" ++ Digest.short (fr.function.blockName parent ++ role.text)) }

/-- The frame after control has fallen off a block. -/
def close (fr : Frame) (block target : Nat) : Frame :=
  if fr.function.isTerminated block then fr
  else if fr.function.isDead block then fr.extend block [.unreachable]
  else fr.extend block [.jump target]

/-- The frame with a slot set up for a local variable. -/
def declare (fr : Frame) (ident : String) (ty : Ty) : Frame :=
  { fr with
    function := { fr.function with slots := fr.function.slots ++ [⟨ident, ty⟩] }
    locals := fr.locals.bind ident ⟨.slot fr.function.slots.length ty, ty⟩ }

theorem code_of_le (h : fr.count ≤ b) : fr.code b = [] := Function.code_of_le h

theorem mem_targets_iff {x : Nat} :
    x ∈ fr.function.targets ↔ ∃ b, ∃ i ∈ fr.code b, x ∈ i.targets :=
  Function.mem_targets_iff

@[simp] theorem count_extend : (fr.extend b more).count = fr.count := Function.length_extend

@[simp] theorem locals_extend : (fr.extend b more).locals = fr.locals := rfl

@[simp] theorem symbols_extend : (fr.extend b more).symbols = fr.symbols := rfl

theorem code_extend (h : b < fr.count) : (fr.extend b more).code b = fr.code b ++ more :=
  Function.code_extend h

theorem code_extend_of_ne {x : Nat} (h : x ≠ b) : (fr.extend b more).code x = fr.code x :=
  Function.code_extend_of_ne h

/-- What comes behind the instructions of any block is among the instructions that are added. -/
theorem exists_code_extend (fr : Frame) (b : Nat) (more : List Instr) (x : Nat) :
    ∃ new, (fr.extend b more).code x = fr.code x ++ new ∧ ∀ i ∈ new, i ∈ more := by
  by_cases hx : x = b
  · subst hx
    rcases Nat.lt_or_ge x fr.count with hlt | hge
    · exact ⟨more, code_extend hlt, fun _ hi ↦ hi⟩
    · have hge' : (fr.extend x more).count ≤ x := by rwa [count_extend]
      exact ⟨[], by rw [code_of_le hge, code_of_le hge', List.append_nil], List.forall_mem_nil _⟩
  · exact ⟨[], by rw [code_extend_of_ne hx, List.append_nil], List.forall_mem_nil _⟩

@[simp] theorem count_child : (fr.child parent role).count = fr.count + 1 :=
  Function.length_addBlock

@[simp] theorem code_child (x : Nat) : (fr.child parent role).code x = fr.code x :=
  Function.code_addBlock x

@[simp] theorem locals_child : (fr.child parent role).locals = fr.locals := rfl

@[simp] theorem symbols_child : (fr.child parent role).symbols = fr.symbols := rfl

@[simp] theorem count_withTape {t : Tape} : (fr.withTape b t).count = fr.count :=
  Function.length_setCode _

theorem code_withTape {t : Tape} (h : b < fr.count) : (fr.withTape b t).code b = t.code :=
  Function.code_setCode h _

theorem code_withTape_of_ne {t : Tape} {x : Nat} (h : x ≠ b) :
    (fr.withTape b t).code x = fr.code x :=
  Function.code_setCode_of_ne h _

@[simp] theorem count_declare {ident : String} {ty : Ty} :
    (fr.declare ident ty).count = fr.count := rfl

@[simp] theorem code_declare {ident : String} {ty : Ty} (x : Nat) :
    (fr.declare ident ty).code x = fr.code x := rfl

end Frame

/-! ## The steps of lowering as changes -/

namespace Lowering

theorem onBlock_apply {α : Type} (block : Nat) (m : Lowering Tape α) (fr : Frame) :
    onBlock block m fr = ((m (fr.tape block)).1, fr.withTape block (m (fr.tape block)).2) := rfl

theorem within_apply {α : Type} (outer : Outer) (block : Nat) (m : Env → Lowering Tape α)
    (fr : Frame) : within outer block m fr = onBlock block (m (fr.env outer)) fr := rfl

theorem onBlock_emitPlain (block : Nat) (i : Instr) (fr : Frame) :
    onBlock block (emitPlain i) fr = (.ok (), fr.extend block [i]) := rfl

theorem childBlock_apply (parent : Nat) (role : Role) (fr : Frame) :
    childBlock parent role fr = (.ok fr.count, fr.child parent role) := rfl

theorem close_apply (block target : Nat) (fr : Frame) :
    close block target fr = (.ok (), fr.close block target) := by
  change (if fr.function.isTerminated block then pure ()
    else if fr.function.isDead block then onBlock block (emitPlain .unreachable)
    else onBlock block (emitPlain (.jump target))) fr = _
  unfold Frame.close
  split
  · rfl
  · split <;> rfl

end Lowering

end BlockCompiler
