import BlockCompiler.Proofs.Declaration

/-!
# Control flow

A function that was lowered without error is a graph of basic blocks: every block ends in its only
terminator, every branch leads to a block of the function, and none leads back to the entry
(`Function.WellFormed`).

## The invariant

While a body is lowered there are open blocks: the one at whose end lowering stands, and those where
control goes on behind the enclosing conditionals and loops. `Grows fr block fr' next` speaks of the
former only. Of the blocks that a list of statements may touch, which are `block` and those it
creates, all are sealed afterwards except `next`; all others keep their code, whether open or not.
The open blocks of enclosing statements are among those others, and this is what makes the relation
compose.
-/

namespace BlockCompiler

/-! ## The code of a block -/

/-- No instruction ends the block. -/
def Straight (code : List Instr) : Prop := ∀ i ∈ code, i.isTerminator = false

/-- The last instruction ends the block, and it is the only one that does. -/
def Sealed (code : List Instr) : Prop :=
  ∃ body last, code = body ++ [last] ∧ Straight body ∧ last.isTerminator = true

/-- At most the last instruction ends the block. -/
def Tidy (code : List Instr) : Prop := Straight code ∨ Sealed code

theorem straight_nil : Straight [] := fun _ h ↦ absurd h List.not_mem_nil

theorem Straight.append {code more : List Instr} (h : Straight code) (hmore : Straight more) :
    Straight (code ++ more) := by
  intro i hi
  rcases List.mem_append.mp hi with hi | hi
  · exact h i hi
  · exact hmore i hi

theorem Straight.append_terminator {code : List Instr} {i : Instr} (h : Straight code)
    (hi : i.isTerminator = true) : Sealed (code ++ [i]) := ⟨code, i, rfl, h, hi⟩

theorem targets_eq_nil_of_not_isTerminator {i : Instr} (h : i.isTerminator = false) :
    i.targets = [] := by
  cases i with
  | ret | jump | branch | unreachable => exact absurd h (by simp [Instr.isTerminator])
  | load | store | arith | compare | test | promote | call => rfl

namespace Function

variable {f : Function} {b : Nat}

theorem isTerminated_of_sealed (h : Sealed (f.code b)) : f.isTerminated b = true := by
  obtain ⟨body, last, hcode, -, hlast⟩ := h
  rw [isTerminated_eq, hcode, List.getLast?_concat, Option.any_some, hlast]

theorem isTerminated_of_straight (h : Straight (f.code b)) : f.isTerminated b = false := by
  rw [isTerminated_eq]
  cases hlast : (f.code b).getLast? with
  | none => rfl
  | some last => exact h last (List.mem_of_getLast? hlast)

theorem straight_of_tidy (h : Tidy (f.code b)) (hopen : f.isTerminated b = false) :
    Straight (f.code b) := by
  rcases h with h | h
  · exact h
  · rw [isTerminated_of_sealed h] at hopen
    exact absurd hopen (by simp)

theorem sealed_of_tidy (h : Tidy (f.code b)) (hclosed : f.isTerminated b = true) :
    Sealed (f.code b) := by
  rcases h with h | h
  · rw [isTerminated_of_straight h] at hclosed
    exact absurd hclosed (by simp)
  · exact h

/-- A function as a graph of basic blocks. -/
structure WellFormed (f : Function) : Prop where
  hasEntry : f.blocks ≠ []
  isSealed : ∀ b ∈ f.blocks, Sealed b.code
  targets_lt : ∀ x ∈ f.targets, x < f.blocks.length
  entry_free : 0 ∉ f.targets

end Function

/-! ## Growing -/

namespace Frame

variable {fr fr₁ fr₂ fr' : Frame} {block m next target : Nat}

/-- Code is appended to `block`, and blocks are added. New instructions go on to blocks from number
`least` on. -/
structure Appends (fr : Frame) (block least : Nat) (fr' : Frame) : Prop where
  count_le : fr.count ≤ fr'.count
  code_of_ne : ∀ x < fr.count, x ≠ block → fr'.code x = fr.code x
  prefix_code : fr.code block <+: fr'.code block
  targets : ∀ x, ∀ i ∈ fr'.code x,
    i ∈ fr.code x ∨ ∀ y ∈ i.targets, least ≤ y ∧ y < fr'.count

/-- Code is lowered from the end of `block` on, up to the end of `next`. -/
structure Grows (fr : Frame) (block : Nat) (fr' : Frame) (next : Nat) : Prop
    extends fr.Appends block fr.count fr' where
  next_lt : next < fr'.count
  next_eq_or_le : next = block ∨ fr.count ≤ next
  isSealed : ∀ x < fr'.count, x = block ∨ fr.count ≤ x → x ≠ next → Sealed (fr'.code x)
  tidy : Tidy (fr'.code next)

/-- Code is lowered from the end of `block` on, and no block is left open. -/
structure Shuts (fr : Frame) (block least : Nat) (fr' : Frame) : Prop
    extends fr.Appends block least fr' where
  isSealed : ∀ x < fr'.count, x = block ∨ fr.count ≤ x → Sealed (fr'.code x)

theorem Appends.refl (fr : Frame) (block least : Nat) : Appends fr block least fr where
  count_le := Nat.le_refl _
  code_of_ne _ _ _ := rfl
  prefix_code := List.prefix_refl _
  targets _ _ hi := .inl hi

theorem Appends.weaken {least least' : Nat} (h : Appends fr block least' fr')
    (hle : least ≤ least') : Appends fr block least fr' where
  count_le := h.count_le
  code_of_ne := h.code_of_ne
  prefix_code := h.prefix_code
  targets x i hi := (h.targets x i hi).imp_right fun htargets y hy ↦
    ⟨Nat.le_trans hle (htargets y hy).1, (htargets y hy).2⟩

/-- The second part appends to `block` or to a block that the first part has added. -/
theorem Appends.trans {least : Nat} (h₁ : Appends fr block least fr₁)
    (h₂ : Appends fr₁ m least fr₂) (hm : m = block ∨ fr.count ≤ m) :
    Appends fr block least fr₂ where
  count_le := Nat.le_trans h₁.count_le h₂.count_le
  code_of_ne x hx hne := by
    have hxm : x ≠ m := by
      rcases hm with rfl | hle
      · exact hne
      · omega
    rw [h₂.code_of_ne x (Nat.lt_of_lt_of_le hx h₁.count_le) hxm, h₁.code_of_ne x hx hne]
  prefix_code := by
    refine h₁.prefix_code.trans ?_
    by_cases hbm : block = m
    · subst hbm
      exact h₂.prefix_code
    · rcases Nat.lt_or_ge block fr₁.count with hlt | hge
      · exact prefix_of_eq (h₂.code_of_ne block hlt hbm)
      · rw [code_of_le hge]
        exact List.nil_prefix
  targets x i hi := by
    rcases h₂.targets x i hi with hi | hi
    · rcases h₁.targets x i hi with hi | hi
      · exact .inl hi
      · exact .inr fun y hy ↦ ⟨(hi y hy).1, Nat.lt_of_lt_of_le (hi y hy).2 h₂.count_le⟩
    · exact .inr hi

theorem appends_of_append {least : Nat} {more : List Instr} (hcount : fr.count ≤ fr'.count)
    (hne : ∀ x, x ≠ block → fr'.code x = fr.code x)
    (hcode : fr'.code block = fr.code block ++ more)
    (htargets : ∀ i ∈ more, ∀ y ∈ i.targets, least ≤ y ∧ y < fr'.count) :
    Appends fr block least fr' where
  count_le := hcount
  code_of_ne x _ h := hne x h
  prefix_code := ⟨more, hcode.symm⟩
  targets x i hi := by
    by_cases hx : x = block
    · subst hx
      rw [hcode, List.mem_append] at hi
      exact hi.imp_right (htargets i)
    · rw [hne x hx] at hi
      exact .inl hi

theorem Grows.refl (hblock : block < fr.count) (h : Tidy (fr.code block)) :
    Grows fr block fr block where
  toAppends := .refl fr block fr.count
  next_lt := hblock
  next_eq_or_le := .inl rfl
  isSealed x hx hor hne := by
    rcases hor with rfl | hle
    · exact absurd rfl hne
    · exact absurd hx (Nat.not_lt_of_le hle)
  tidy := h

theorem Grows.trans (h₁ : Grows fr block fr₁ m) (h₂ : Grows fr₁ m fr₂ next) :
    Grows fr block fr₂ next where
  toAppends := h₁.toAppends.trans (h₂.toAppends.weaken h₁.count_le) h₁.next_eq_or_le
  next_lt := h₂.next_lt
  next_eq_or_le := by
    rcases h₂.next_eq_or_le with rfl | hle
    · exact h₁.next_eq_or_le
    · exact .inr (Nat.le_trans h₁.count_le hle)
  isSealed x hx hor hne := by
    -- The block where the two parts meet is sealed by the second; what the first part sealed is
    -- not touched again.
    by_cases hm : x = m
    · exact h₂.isSealed x hx (.inl hm) hne
    · rcases Nat.lt_or_ge x fr₁.count with hlt | hge
      · rw [h₂.code_of_ne x hlt hm]
        exact h₁.isSealed x hlt hor hm
      · exact h₂.isSealed x hx (.inr hge) hne
  tidy := h₂.tidy

/-- Appending to the block at hand. -/
theorem grows_of_append {more : List Instr} (hblock : block < fr.count)
    (hcount : fr'.count = fr.count) (hne : ∀ x, x ≠ block → fr'.code x = fr.code x)
    (hcode : fr'.code block = fr.code block ++ more)
    (htargets : ∀ i ∈ more, i.targets = []) (htidy : Tidy (fr'.code block)) :
    Grows fr block fr' block where
  toAppends := appends_of_append (Nat.le_of_eq hcount.symm) hne hcode fun i hi ↦ by
    simp [htargets i hi]
  next_lt := hcount.symm ▸ hblock
  next_eq_or_le := .inl rfl
  isSealed x hx hor h := by
    rcases hor with rfl | hle
    · exact absurd rfl h
    · exact absurd (hcount ▸ hx) (Nat.not_lt_of_le hle)
  tidy := htidy

/-! ## Closing a block -/

/-- Closing appends nothing to a block that is finished already; to another one it appends a jump,
or the mark of a block that is never entered. -/
theorem close_eq (fr : Frame) (block target : Nat) :
    (fr.function.isTerminated block = true ∧ fr.close block target = fr) ∨
      fr.function.isTerminated block = false ∧
        ∃ i, (i = .unreachable ∧ fr.function.isDead block = true ∨
            i = .jump target ∧ fr.function.isDead block = false) ∧
          fr.close block target = fr.extend block [i] := by
  unfold close
  cases hterm : fr.function.isTerminated block with
  | true => exact .inl ⟨rfl, rfl⟩
  | false =>
    cases hdead : fr.function.isDead block with
    | true => exact .inr ⟨rfl, .unreachable, .inl ⟨rfl, rfl⟩, rfl⟩
    | false => exact .inr ⟨rfl, .jump target, .inr ⟨rfl, rfl⟩, rfl⟩

theorem Grows.shuts {least : Nat} (h : Grows fr block fr' m) (hleast : least ≤ fr.count)
    (hterm : fr'.function.isTerminated m = true) : Shuts fr block least fr' where
  toAppends := h.toAppends.weaken hleast
  isSealed x hx hor := by
    by_cases hm : x = m
    · subst hm
      exact Function.sealed_of_tidy h.tidy hterm
    · exact h.isSealed x hx hor hm

/-- A terminator shuts the block that is still open. -/
theorem Grows.terminate {least : Nat} {i : Instr} (h : Grows fr block fr₁ m)
    (hleast : least ≤ fr.count) (hopen : fr₁.function.isTerminated m = false)
    (hterm : i.isTerminator = true) (htargets : ∀ y ∈ i.targets, least ≤ y ∧ y < fr₁.count) :
    Shuts fr block least (fr₁.extend m [i]) where
  toAppends := by
    refine (h.toAppends.weaken hleast).trans ?_ h.next_eq_or_le
    exact appends_of_append (Nat.le_of_eq count_extend.symm) (fun x hx ↦ code_extend_of_ne hx)
      (code_extend h.next_lt) (by simpa using htargets)
  isSealed x hx hor := by
    by_cases hm : x = m
    · subst hm
      rw [code_extend h.next_lt]
      exact (Function.straight_of_tidy h.tidy hopen).append_terminator hterm
    · rw [code_extend_of_ne hm]
      exact h.isSealed x (by simpa using hx) hor hm

theorem Grows.close {least : Nat} (h : Grows fr block fr₁ m) (hleast : least ≤ fr.count)
    (htarget : least ≤ target) (hlt : target < fr.count) :
    Shuts fr block least (fr₁.close m target) := by
  rcases close_eq fr₁ m target with ⟨hterm, heq⟩ | ⟨hopen, i, ⟨rfl, -⟩ | ⟨rfl, -⟩, heq⟩
  · rw [heq]
    exact h.shuts hleast hterm
  · rw [heq]
    exact h.terminate hleast hopen rfl (by simp [Instr.targets])
  · rw [heq]
    refine h.terminate hleast hopen rfl fun y hy ↦ ?_
    obtain rfl := List.mem_singleton.mp hy
    exact ⟨htarget, Nat.lt_of_lt_of_le hlt h.count_le⟩

/-! ## Opening blocks -/

/-- A block is sealed by an instruction that goes on to some of `n` new blocks, which are empty. -/
structure Opens (fr : Frame) (block n : Nat) (fr' : Frame) : Prop where
  count_eq : fr'.count = fr.count + n
  code_of_ne : ∀ x, x ≠ block → fr'.code x = fr.code x
  code_block : ∃ last, fr'.code block = fr.code block ++ [last] ∧ last.isTerminator = true ∧
    ∀ y ∈ last.targets, fr.count ≤ y ∧ y < fr'.count

theorem code_fork (h : block < fr.count) (c : Value) :
    (fr.fork block c).code block = fr.code block ++ [.branch c fr.count (fr.count + 1)] := by
  rw [fork, code_extend (by simp; omega), code_child, code_child]

theorem code_forkElse (h : block < fr.count) (c : Value) :
    (fr.forkElse block c).code block = fr.code block ++ [.branch c fr.count (fr.count + 1)] := by
  rw [forkElse, code_extend (by simp; omega), code_child, code_child, code_child]

theorem code_enterLoop (h : block < fr.count) :
    (fr.enterLoop block).code block = fr.code block ++ [.jump fr.count] := by
  rw [enterLoop, code_extend (by simp; omega), code_child, code_child, code_child]

theorem opens_fork (h : block < fr.count) (c : Value) : Opens fr block 2 (fr.fork block c) where
  count_eq := by simp [fork]
  code_of_ne x hx := by rw [fork, code_extend_of_ne hx, code_child, code_child]
  code_block := by
    refine ⟨.branch c fr.count (fr.count + 1), code_fork h c, rfl, fun y hy ↦ ?_⟩
    have hcount : (fr.fork block c).count = fr.count + 2 := by simp [fork]
    have hy : y = fr.count ∨ y = fr.count + 1 := by simpa [Instr.targets] using hy
    omega

theorem opens_forkElse (h : block < fr.count) (c : Value) :
    Opens fr block 3 (fr.forkElse block c) where
  count_eq := by simp [forkElse]
  code_of_ne x hx := by rw [forkElse, code_extend_of_ne hx, code_child, code_child, code_child]
  code_block := by
    refine ⟨.branch c fr.count (fr.count + 1), code_forkElse h c, rfl, fun y hy ↦ ?_⟩
    have hcount : (fr.forkElse block c).count = fr.count + 3 := by simp [forkElse]
    have hy : y = fr.count ∨ y = fr.count + 1 := by simpa [Instr.targets] using hy
    omega

theorem opens_enterLoop (h : block < fr.count) : Opens fr block 3 (fr.enterLoop block) where
  count_eq := by simp [enterLoop]
  code_of_ne x hx := by rw [enterLoop, code_extend_of_ne hx, code_child, code_child, code_child]
  code_block := by
    refine ⟨.jump fr.count, code_enterLoop h, rfl, fun y hy ↦ ?_⟩
    have hcount : (fr.enterLoop block).count = fr.count + 3 := by simp [enterLoop]
    have hy : y = fr.count := by simpa [Instr.targets] using hy
    omega

/-- Code is lowered from the end of `block` on, except that the `pending` blocks, which are new, are
still empty. All others are sealed. -/
structure Fills (fr : Frame) (block : Nat) (pending : List Nat) (fr' : Frame) : Prop
    extends fr.Appends block fr.count fr' where
  isPending : ∀ x ∈ pending, fr.count ≤ x ∧ x < fr'.count ∧ fr'.code x = []
  isSealed : ∀ x < fr'.count, x = block ∨ fr.count ≤ x → x ∉ pending → Sealed (fr'.code x)

theorem Opens.fills {n : Nat} (h : Opens fr block n fr₁) (hblock : block < fr.count)
    (hstraight : Straight (fr.code block)) :
    Fills fr block (List.range' fr.count n) fr₁ := by
  obtain ⟨last, hcode, hterm, htargets⟩ := h.code_block
  have hcount : fr.count ≤ fr₁.count := by rw [h.count_eq]; omega
  refine ⟨appends_of_append hcount h.code_of_ne hcode (by simpa using htargets),
    fun x hx ↦ ?_, fun x hx hor hnot ↦ ?_⟩
  · have hx := List.mem_range'_1.mp hx
    refine ⟨hx.1, by rw [h.count_eq]; exact hx.2, ?_⟩
    rw [h.code_of_ne x (by omega), code_of_le hx.1]
  · rcases hor with rfl | hle
    · rw [hcode]
      exact hstraight.append_terminator hterm
    · rw [h.count_eq] at hx
      exact absurd (List.mem_range'_1.mpr ⟨hle, hx⟩) hnot

/-- The first pending block is filled. -/
theorem Fills.shut {x : Nat} {pending : List Nat} (h : Fills fr block (x :: pending) fr₁)
    (hx : x ∉ pending) (hshut : Shuts fr₁ x fr.count fr₂) : Fills fr block pending fr₂ := by
  obtain ⟨hxle, -, -⟩ := h.isPending x List.mem_cons_self
  refine ⟨h.toAppends.trans hshut.toAppends (.inr hxle), fun y hy ↦ ?_, fun y hy hor hnot ↦ ?_⟩
  · obtain ⟨hyle, hylt, hycode⟩ := h.isPending y (List.mem_cons_of_mem x hy)
    have hne : y ≠ x := fun hyx ↦ hx (hyx ▸ hy)
    refine ⟨hyle, Nat.lt_of_lt_of_le hylt hshut.count_le, ?_⟩
    rw [hshut.code_of_ne y hylt hne, hycode]
  · by_cases hyx : y = x
    · exact hshut.isSealed y hy (.inl hyx)
    · rcases Nat.lt_or_ge y fr₁.count with hlt | hge
      · rw [hshut.code_of_ne y hlt hyx]
        exact h.isSealed y hlt hor fun hmem ↦ (List.mem_cons.mp hmem).elim hyx hnot
      · exact hshut.isSealed y hy (.inr hge)

theorem Fills.grows (h : Fills fr block [next] fr') : Grows fr block fr' next := by
  obtain ⟨hle, hlt, hcode⟩ := h.isPending next (List.mem_singleton.mpr rfl)
  refine ⟨h.toAppends, hlt, .inr hle,
    fun x hx hor hne ↦ h.isSealed x hx hor fun hmem ↦ hne (List.mem_singleton.mp hmem), ?_⟩
  rw [hcode]
  exact .inl straight_nil

theorem Fills.lt_and_tidy {x : Nat} {pending : List Nat} (h : Fills fr block pending fr')
    (hx : x ∈ pending) : x < fr'.count ∧ Tidy (fr'.code x) := by
  obtain ⟨-, hlt, hcode⟩ := h.isPending x hx
  exact ⟨hlt, by rw [hcode]; exact .inl straight_nil⟩

/-- The first pending block is filled by a body, behind which control goes on to a new block. -/
theorem Fills.close {x : Nat} {pending : List Nat} (h : Fills fr block (x :: pending) fr₁)
    (hx : x ∉ pending) (hbody : Grows fr₁ x fr₂ m) (htarget : fr.count ≤ target)
    (hlt : target < fr₁.count) : Fills fr block pending (fr₂.close m target) :=
  h.shut hx (hbody.close h.count_le htarget hlt)

/-! ## Single steps -/

/-- Lowering an expression leaves the block open. -/
theorem grows_withTape {t : Tape} (hblock : block < fr.count) (hstraight : Straight (fr.code block))
    (h : (fr.tape block).Extends t) :
    Grows fr block (fr.withTape block t) block ∧
      Straight ((fr.withTape block t).code block) := by
  obtain ⟨more, hcode, hplain⟩ := h.code
  have hcode' : (fr.withTape block t).code block = fr.code block ++ more := by
    rw [code_withTape hblock, hcode]
    rfl
  have hstraight' : Straight ((fr.withTape block t).code block) := by
    rw [hcode']
    exact hstraight.append hplain
  exact ⟨grows_of_append hblock count_withTape (fun x hx ↦ code_withTape_of_ne hx) hcode'
    (fun i hi ↦ targets_eq_nil_of_not_isTerminator (hplain i hi)) (.inl hstraight'), hstraight'⟩

theorem grows_extend {i : Instr} (hblock : block < fr.count) (hstraight : Straight (fr.code block))
    (htargets : i.targets = []) : Grows fr block (fr.extend block [i]) block := by
  refine grows_of_append hblock count_extend (fun x hx ↦ code_extend_of_ne hx) (code_extend hblock)
    (by simpa using htargets) ?_
  rw [code_extend hblock]
  cases hterm : i.isTerminator with
  | true => exact .inr (hstraight.append_terminator hterm)
  | false => exact .inl (hstraight.append (by simpa [Straight] using hterm))

theorem grows_of_assigns {outer : Outer} {ident : String} {v : Value} (hblock : block < fr.count)
    (hstraight : Straight (fr.code block)) (h : Lowering.Assigns outer block ident v fr fr') :
    Grows fr block fr' block ∧ Straight (fr'.code block) := by
  have hstore (address : Value) : Straight (fr.code block ++ [.store v address]) :=
    hstraight.append (by simp [Straight, Instr.isTerminator])
  cases h with
  | known => exact ⟨grows_extend hblock hstraight rfl, by rw [code_extend hblock]; exact hstore _⟩
  | first =>
    -- A slot is no instruction: the code of the frame with the new slot is that of the frame.
    have hcode : ((fr.declare ident v.ty).extend block
        [.store v (.slot fr.function.slots.length v.ty)]).code block =
        fr.code block ++ [.store v (.slot fr.function.slots.length v.ty)] :=
      code_extend (by simpa using hblock)
    exact ⟨grows_of_append hblock (by simp) (fun x hx ↦ by rw [code_extend_of_ne hx, code_declare])
      hcode (by simp [Instr.targets]) (.inl (hcode ▸ hstore _)), hcode ▸ hstore _⟩

theorem grows_of_binds {outer : Outer} {ps : List (String × Value)} (hblock : block < fr.count)
    (hstraight : Straight (fr.code block)) (h : Lowering.Binds outer block ps fr fr') :
    Grows fr block fr' block ∧ Straight (fr'.code block) := by
  induction h with
  | nil => exact ⟨.refl hblock (.inl hstraight), hstraight⟩
  | cons assigned _ ih =>
    obtain ⟨hgrows, hplain⟩ := grows_of_assigns hblock hstraight assigned
    obtain ⟨hrest, hplain⟩ := ih hgrows.next_lt hplain
    exact ⟨hgrows.trans hrest, hplain⟩

theorem shuts_turn {t : Tape} {test : Nat} {c : Value} (htest : test + 2 < fr.count)
    (hstraight : Straight (fr.code test)) (h : (fr.tape test).Extends t) :
    Shuts fr test test ((fr.withTape test t).turn test c) := by
  obtain ⟨hgrows, hplain⟩ := grows_withTape (by omega) hstraight h
  refine hgrows.terminate (by omega) (Function.isTerminated_of_straight hplain) rfl fun y hy ↦ ?_
  have hy : y = test + 1 ∨ y = test + 2 := by simpa [Instr.targets] using hy
  rw [count_withTape]
  omega

/-! ## Conditionals and loops

The bodies are given by what is known of them once they start in an empty block. -/

theorem fills_fork {n : Nat} {c : Value} (hn : fr.count = n) (hblock : block < fr.count)
    (hstraight : Straight (fr.code block))
    (hbody : n < (fr.fork block c).count → Tidy ((fr.fork block c).code n) →
      Grows (fr.fork block c) n fr₁ m) :
    Fills fr block [n + 1] (fr₁.close m (n + 1)) := by
  subst hn
  have hfork : Fills fr block [fr.count, fr.count + 1] (fr.fork block c) :=
    (opens_fork hblock c).fills hblock hstraight
  obtain ⟨hlt, htidy⟩ := hfork.lt_and_tidy (x := fr.count) (by simp)
  have hafter := (hfork.lt_and_tidy (x := fr.count + 1) (by simp)).1
  exact hfork.close (by simp) (hbody hlt htidy) (Nat.le_succ _) hafter

theorem fills_forkElse {n : Nat} {c : Value} (hn : fr.count = n) (hblock : block < fr.count)
    (hstraight : Straight (fr.code block))
    (hbody : n < (fr.forkElse block c).count → Tidy ((fr.forkElse block c).code n) →
      Grows (fr.forkElse block c) n fr₁ m) :
    Fills fr block [n + 1, n + 2] (fr₁.close m (n + 2)) := by
  subst hn
  have hfork : Fills fr block [fr.count, fr.count + 1, fr.count + 2] (fr.forkElse block c) :=
    (opens_forkElse hblock c).fills hblock hstraight
  obtain ⟨hlt, htidy⟩ := hfork.lt_and_tidy (x := fr.count) (by simp)
  have hafter := (hfork.lt_and_tidy (x := fr.count + 2) (by simp)).1
  exact hfork.close (by simp) (hbody hlt htidy) (by omega) hafter

/-- The alternative of a conditional is lowered after its body. -/
theorem Fills.otherwise {n p : Nat} (hn : fr.count = n)
    (h : Fills fr block [n + 1, n + 2] fr₁)
    (hotherwise : n + 1 < fr₁.count → Tidy (fr₁.code (n + 1)) → Grows fr₁ (n + 1) fr₂ p) :
    Fills fr block [n + 2] (fr₂.close p (n + 2)) := by
  subst hn
  obtain ⟨hlt, htidy⟩ := h.lt_and_tidy (x := fr.count + 1) (by simp)
  have hafter := (h.lt_and_tidy (x := fr.count + 2) (by simp)).1
  exact h.close (by simp) (hotherwise hlt htidy) (by omega) hafter

/-- The block of the condition of a loop is sealed by the branch behind the condition. -/
theorem fills_turn {t : Tape} {c : Value} (hblock : block < fr.count)
    (hstraight : Straight (fr.code block))
    (hcond : ((fr.enterLoop block).tape fr.count).Extends t) :
    Fills fr block [fr.count + 1, fr.count + 2]
      (((fr.enterLoop block).withTape fr.count t).turn fr.count c) := by
  have henter : Fills fr block [fr.count, fr.count + 1, fr.count + 2] (fr.enterLoop block) :=
    (opens_enterLoop hblock).fills hblock hstraight
  obtain ⟨-, -, hempty⟩ := henter.isPending fr.count (by simp)
  have hafter := (henter.lt_and_tidy (x := fr.count + 2) (by simp)).1
  exact henter.shut (by simp) (shuts_turn (c := c) hafter (hempty ▸ straight_nil) hcond)

theorem fills_loop {t : Tape} {c : Value} (hblock : block < fr.count)
    (hstraight : Straight (fr.code block)) (hcond : ((fr.enterLoop block).tape fr.count).Extends t)
    (hbody : fr.count + 1 < (((fr.enterLoop block).withTape fr.count t).turn fr.count c).count →
      Tidy ((((fr.enterLoop block).withTape fr.count t).turn fr.count c).code (fr.count + 1)) →
      Grows (((fr.enterLoop block).withTape fr.count t).turn fr.count c) (fr.count + 1) fr₁ m) :
    Fills fr block [fr.count + 2] (fr₁.close m fr.count) := by
  have htest := fills_turn (c := c) hblock hstraight hcond
  obtain ⟨hlt, htidy⟩ := htest.lt_and_tidy (x := fr.count + 1) (by simp)
  exact htest.close (by simp) (hbody hlt htidy) (Nat.le_refl _) (by
    have := (htest.lt_and_tidy (x := fr.count + 2) (by simp)).1
    omega)

end Frame

/-! ## Bodies -/

namespace Lowering

variable {outer : Outer} {fr fr₁ fr₂ fr' : Frame} {block m next : Nat}

theorem grows_of_lowers {ss : List Stmt} (h : Lowers outer ss block fr next fr')
    (hblock : block < fr.count) (htidy : Tidy (fr.code block)) : fr.Grows block fr' next := by
  induction h with
  | nil => exact .refl hblock htidy
  | assign isOpen valueOk assigned _ ih =>
    obtain ⟨hvalue, hplain⟩ := Frame.grows_withTape hblock (Function.straight_of_tidy htidy isOpen)
      ((expr_moves _ _).of_eq valueOk)
    obtain ⟨hassign, -⟩ := Frame.grows_of_assigns hvalue.next_lt hplain assigned
    exact (hvalue.trans hassign).trans (ih hassign.next_lt hassign.tidy)
  | @ret _ _ _ _ v _ _ _ isOpen valueOk _ _ ih =>
    obtain ⟨hvalue, hplain⟩ := Frame.grows_withTape hblock (Function.straight_of_tidy htidy isOpen)
      ((expr_moves _ _).of_eq valueOk)
    have hret := Frame.grows_extend (i := .ret (some v)) hvalue.next_lt hplain rfl
    exact (hvalue.trans hret).trans (ih hret.next_lt hret.tidy)
  | ifThen isOpen condOk _ _ ihBody ihRest =>
    obtain ⟨hcond, hplain⟩ := Frame.grows_withTape hblock (Function.straight_of_tidy htidy isOpen)
      ((condition_moves _ _).of_eq condOk)
    have hfork := (Frame.fills_fork Frame.count_withTape hcond.next_lt hplain ihBody).grows
    exact (hcond.trans hfork).trans (ihRest hfork.next_lt hfork.tidy)
  | ifElse isOpen condOk _ _ _ ihBody ihOtherwise ihRest =>
    obtain ⟨hcond, hplain⟩ := Frame.grows_withTape hblock (Function.straight_of_tidy htidy isOpen)
      ((condition_moves _ _).of_eq condOk)
    have hbody := Frame.fills_forkElse Frame.count_withTape hcond.next_lt hplain ihBody
    have hfork := (hbody.otherwise Frame.count_withTape ihOtherwise).grows
    exact (hcond.trans hfork).trans (ihRest hfork.next_lt hfork.tidy)
  | loop isOpen condOk _ _ ihBody ihRest =>
    have hloop := (Frame.fills_loop hblock (Function.straight_of_tidy htidy isOpen)
      ((condition_moves _ _).of_eq condOk) ihBody).grows
    exact hloop.trans (ihRest hloop.next_lt hloop.tidy)
  | call isOpen callOk _ ih =>
    obtain ⟨hcall, hplain⟩ := Frame.grows_withTape hblock (Function.straight_of_tidy htidy isOpen)
      ((call_moves _ _ _).of_eq callOk)
    exact hcall.trans (ih hcall.next_lt hcall.tidy)
  | eval _ isOpen valueOk _ ih =>
    obtain ⟨hvalue, hplain⟩ := Frame.grows_withTape hblock (Function.straight_of_tidy htidy isOpen)
      ((expr_moves _ _).of_eq valueOk)
    exact hvalue.trans (ih hvalue.next_lt hvalue.tidy)

/-- The end of a body seals the last block that is open. -/
theorem sealed_of_finishes {head : Prototype} {last : Nat} (h : Finishes head last fr fr')
    (hlast : last < fr.count) (htidy : Tidy (fr.code last)) :
    fr'.count = fr.count ∧ (∀ x, x ≠ last → fr'.code x = fr.code x) ∧ Sealed (fr'.code last) ∧
      ∀ i ∈ fr'.code last, i ∈ fr.code last ∨ i.targets = [] := by
  cases h with
  | ended terminated =>
    exact ⟨rfl, fun _ _ ↦ rfl, Function.sealed_of_tidy htidy terminated, fun _ hi ↦ .inl hi⟩
  | dead isOpen | void isOpen =>
    refine ⟨by simp, fun x hx ↦ Frame.code_extend_of_ne hx, ?_, fun i hi ↦ ?_⟩
    · rw [Frame.code_extend hlast]
      exact (Function.straight_of_tidy htidy isOpen).append_terminator rfl
    · rw [Frame.code_extend hlast, List.mem_append, List.mem_singleton] at hi
      exact hi.imp_right fun hi ↦ by rw [hi]; rfl

/-- The function of a body that is lowered without error, if it had no block before. -/
theorem wellFormed_of_lowersBody {head : Prototype} {ss : List Stmt} {bound : Frame} {last : Nat}
    {lowered finished : Frame} (h : LowersBody outer head ss fr bound last lowered finished)
    (hblocks : fr.function.blocks = []) : finished.function.WellFormed := by
  have hcount : fr.count = 0 := List.length_eq_zero_iff.mpr hblocks
  have hempty : ∀ x, (fr.enter head).code x = [] := Frame.code_enter_of_nil head hblocks
  have hentry : 0 < (fr.enter head).count := by simp
  obtain ⟨hbinds, hplain⟩ := Frame.grows_of_binds (hcount ▸ hentry)
    (by rw [hempty]; exact straight_nil) h.binds
  have hgrows := hbinds.trans (grows_of_lowers h.lowers hbinds.next_lt (.inl hplain))
  obtain ⟨hfinal, hother, hlast, htargets⟩ :=
    sealed_of_finishes h.finishes hgrows.next_lt hgrows.tidy
  -- The function had no blocks, so that all its blocks and all their instructions are new.
  have hsealed : ∀ x < finished.count, Sealed (finished.code x) := by
    intro x hx
    by_cases hne : x = last
    · exact hne ▸ hlast
    · rw [hother x hne]
      refine hgrows.isSealed x (hfinal ▸ hx) ?_ hne
      rw [Frame.count_enter, hcount]
      omega
  have hrange : ∀ y ∈ finished.function.targets, 0 < y ∧ y < finished.count := by
    intro y hy
    obtain ⟨x, i, hi, hy⟩ := Function.mem_targets_iff.mp hy
    -- What the end of the body appends goes on to no block.
    have hi : i ∈ lowered.code x := by
      by_cases hne : x = last
      · subst hne
        refine (htargets i hi).resolve_right fun hnone ↦ ?_
        rw [hnone] at hy
        exact absurd hy List.not_mem_nil
      · rwa [← hother x hne]
    rcases hgrows.targets x i hi with hi | hi
    · rw [hempty] at hi
      exact absurd hi List.not_mem_nil
    · have := hi y hy
      rw [Frame.count_enter, hcount] at this
      omega
  refine ⟨fun hnil ↦ ?_, fun b hb ↦ ?_, fun y hy ↦ (hrange y hy).2, fun h0 ↦ ?_⟩
  · have hlt := hgrows.next_lt
    rw [← hfinal, Frame.count, hnil] at hlt
    exact absurd hlt (Nat.not_lt_zero _)
  · obtain ⟨x, hx⟩ := List.getElem?_of_mem hb
    rw [← Function.code_of_getElem? hx]
    exact hsealed x (List.getElem?_eq_some_iff.mp hx).1
  · exact absurd (hrange 0 h0).1 (Nat.lt_irrefl 0)

/-- A definition that is lowered without error, in whatever context, is a graph of basic blocks. -/
theorem wellFormed_of_define {c : Context} {head : Prototype} {ss : List Stmt}
    (h : (decl (.function head ss) c).1 = .ok ()) :
    ∃ f, (decl (.function head ss) c).2.function? head.ident = some f ∧ f.WellFormed := by
  rw [decl] at h ⊢
  rcases hdefine : define head ss c with ⟨result, c'⟩
  rw [hdefine] at h
  obtain rfl : result = .ok () := h
  obtain ⟨id, c₁, f, bound, last, lowered, finished, hdeclares, hf, -, hblocks, hbody, hextends,
    rfl⟩ := exists_of_define hdefine
  refine ⟨finished.function, ?_, wellFormed_of_lowersBody hbody hblocks⟩
  rw [Context.function?, Context.functionId?_withFrame hf hextends.signature, hdeclares.functionId?,
    Option.bind_some, Context.getElem?_withFrame hf]
  rfl

/-- Both branches of the conditional leave the function, so that the block behind it is dead. -/
theorem wellFormed_nested_returns :
    ∃ f, (decl (.function ⟨.double, "f", [⟨.double, "x"⟩]⟩ [.ifElse (.name "x")
      [.loop (.name "x") [.assign "x" (.binary .sub (.name "x") (.number 1))], .ret (.name "x")]
      [.ret (.number 1)]]) .empty).2.function? "f" = some f ∧ f.WellFormed :=
  wellFormed_of_define (eq_ok_of_isOk (by decide +kernel))

end Lowering

end BlockCompiler
