import BlockCompiler.Proofs.Checker
import BlockCompiler.Proofs.ControlFlow

/-!
# The flow at the end of a block

Whether control goes on at the end of a block is read off the code: the block is finished, or no
instruction leads to it, or it is live (`Frame.flow`). Lowering asks this question when a block is
closed and at the end of a body. Here it is answered for the blocks of conditionals and loops: those
in which a body starts are live, and so is the one behind a loop or behind a conditional without
alternative; the one behind a conditional with alternative is live if one of its branches ends in a
live block.
-/

namespace BlockCompiler

namespace Frame

variable {fr fr₁ fr₂ fr' : Frame} {block m next target y : Nat} {more : List Instr}

/-- The flow at the end of a block. -/
def flow (fr : Frame) (block : Nat) : Flow :=
  if fr.function.isTerminated block then .ended
  else if fr.function.isDead block then .dead
  else .live

theorem flow_ne_ended_iff :
    fr.flow block ≠ .ended ↔ fr.function.isTerminated block = false := by
  unfold flow
  cases fr.function.isTerminated block with
  | true => simp
  | false => cases fr.function.isDead block <;> simp

theorem flow_eq_live_iff : fr.flow block = .live ↔
    fr.function.isTerminated block = false ∧ fr.function.isDead block = false := by
  unfold flow
  cases fr.function.isTerminated block with
  | true => simp
  | false => cases fr.function.isDead block <;> simp

/-- A new block is live if an instruction leads to it. -/
theorem flow_of_nil (hcode : fr.code block = []) (hne : block ≠ 0) :
    fr.flow block = if block ∈ fr.function.targets then .live else .dead := by
  have hopen : fr.function.isTerminated block = false :=
    Function.isTerminated_of_straight (by rw [← code, hcode]; exact straight_nil)
  by_cases hmem : block ∈ fr.function.targets
  · simp [flow, hopen, Function.isDead, hne, hmem]
  · simp [flow, hopen, Function.isDead, hne, hmem]

/-- The flow depends on the code of the block, and on whether something leads to it. -/
theorem flow_congr (hcode : fr'.function.isTerminated block = fr.function.isTerminated block)
    (htargets : block ∈ fr'.function.targets ↔ block ∈ fr.function.targets) :
    fr'.flow block = fr.flow block := by
  simp [flow, hcode, Function.isDead, htargets]

/-! ## What leads to a block -/

/-- All instructions lead to blocks of the function. -/
def Closed (fr : Frame) : Prop := ∀ y ∈ fr.function.targets, y < fr.count

theorem mem_targets_extend (hblock : block < fr.count) :
    y ∈ (fr.extend block more).function.targets ↔
      y ∈ fr.function.targets ∨ ∃ i ∈ more, y ∈ i.targets := by
  simp only [mem_targets_iff]
  constructor
  · rintro ⟨x, i, hi, hy⟩
    by_cases hx : x = block
    · subst hx
      have hi : i ∈ fr.code x ++ more := code_extend hblock ▸ hi
      rcases List.mem_append.mp hi with hi | hi
      · exact .inl ⟨x, i, hi, hy⟩
      · exact .inr ⟨i, hi, hy⟩
    · have hi : i ∈ fr.code x := code_extend_of_ne hx ▸ hi
      exact .inl ⟨x, i, hi, hy⟩
  · rintro (⟨x, i, hi, hy⟩ | ⟨i, hi, hy⟩)
    · exact ⟨x, i, (Extends.extend.code x).subset hi, hy⟩
    · have hmem : i ∈ (fr.extend block more).code block := by
        rw [code_extend hblock]
        exact List.mem_append_right _ hi
      exact ⟨block, i, hmem, hy⟩

theorem mem_targets_child {parent : Nat} {role : Role} :
    y ∈ (fr.child parent role).function.targets ↔ y ∈ fr.function.targets := by
  simp only [mem_targets_iff, code_child]

/-- What is lowered behind leads to new blocks only. -/
theorem Grows.target_iff (h : Grows fr block fr' next) (hy : y < fr.count) :
    y ∈ fr'.function.targets ↔ y ∈ fr.function.targets := by
  simp only [mem_targets_iff]
  constructor
  · rintro ⟨x, i, hi, hmem⟩
    rcases h.targets x i hi with hi | hi
    · exact ⟨x, i, hi, hmem⟩
    · exact absurd (hi y hmem).1 (Nat.not_le_of_lt hy)
  · rintro ⟨x, i, hi, hmem⟩
    refine ⟨x, i, ?_, hmem⟩
    by_cases hx : x = block
    · subst hx
      exact h.prefix_code.subset hi
    · rw [h.code_of_ne x (Function.lt_of_mem_code hi) hx]
      exact hi

theorem Appends.closed {least : Nat} (h : Appends fr block least fr') (hclosed : fr.Closed) :
    fr'.Closed := by
  intro y hy
  obtain ⟨x, i, hi, hmem⟩ := mem_targets_iff.mp hy
  rcases h.targets x i hi with hi | hi
  · exact Nat.lt_of_lt_of_le (hclosed y (mem_targets_iff.mpr ⟨x, i, hi, hmem⟩)) h.count_le
  · exact (hi y hmem).2

/-- Lowering an expression leaves the flow as it is. -/
theorem flow_withTape {t : Tape} (hblock : block < fr.count) (hstraight : Straight (fr.code block))
    (h : (fr.tape block).Extends t) : (fr.withTape block t).flow block = fr.flow block := by
  obtain ⟨hgrows, hplain⟩ := grows_withTape hblock hstraight h
  refine flow_congr ?_ (hgrows.target_iff hblock)
  rw [Function.isTerminated_of_straight hplain, Function.isTerminated_of_straight hstraight]

theorem flow_of_assigns {outer : Outer} {ident : String} {v : Value} (hblock : block < fr.count)
    (hstraight : Straight (fr.code block)) (h : Lowering.Assigns outer block ident v fr fr') :
    fr'.flow block = fr.flow block := by
  obtain ⟨hgrows, hplain⟩ := grows_of_assigns hblock hstraight h
  refine flow_congr ?_ (hgrows.target_iff hblock)
  rw [Function.isTerminated_of_straight hplain, Function.isTerminated_of_straight hstraight]

/-- A live block that is closed goes on to the target, and no other does. -/
theorem mem_targets_close (hm : m < fr.count) :
    y ∈ (fr.close m target).function.targets ↔
      y ∈ fr.function.targets ∨ fr.flow m = .live ∧ y = target := by
  rw [flow_eq_live_iff]
  rcases close_eq fr m target with ⟨hterm, heq⟩ | ⟨hopen, i, ⟨rfl, hdead⟩ | ⟨rfl, hdead⟩, heq⟩
  · simp [heq, hterm]
  · simp [heq, mem_targets_extend hm, hopen, hdead, Instr.targets]
  · simp [heq, mem_targets_extend hm, hopen, hdead, Instr.targets]

/-! ## Conditionals -/

theorem mem_targets_fork {c : Value} (hblock : block < fr.count) :
    y ∈ (fr.fork block c).function.targets ↔
      y ∈ fr.function.targets ∨ y = fr.count ∨ y = fr.count + 1 := by
  rw [fork, mem_targets_extend (by simp; omega), mem_targets_child, mem_targets_child]
  simp [Instr.targets]

theorem mem_targets_forkElse {c : Value} (hblock : block < fr.count) :
    y ∈ (fr.forkElse block c).function.targets ↔
      y ∈ fr.function.targets ∨ y = fr.count ∨ y = fr.count + 1 := by
  rw [forkElse, mem_targets_extend (by simp; omega), mem_targets_child, mem_targets_child,
    mem_targets_child]
  simp [Instr.targets]

theorem Fills.flow {pending : List Nat} (h : Fills fr block pending fr') (hblock : block < fr.count)
    (hy : y ∈ pending) :
    fr'.flow y = if y ∈ fr'.function.targets then .live else .dead := by
  obtain ⟨hle, -, hcode⟩ := h.isPending y hy
  exact flow_of_nil hcode (by omega)

section

variable {n p : Nat} {c : Value} (hn : fr.count = n) (hblock : block < fr.count)
  (hstraight : Straight (fr.code block))

include hn hblock hstraight

theorem flow_fork_body : (fr.fork block c).flow n = .live := by
  subst hn
  rw [((opens_fork hblock c).fills hblock hstraight).flow hblock (by simp [List.mem_range'_1]),
    if_pos ((mem_targets_fork hblock).mpr (.inr (.inl rfl)))]

theorem flow_fork_after (h : Grows (fr.fork block c) n fr₁ m) :
    (fr₁.close m (n + 1)).flow (n + 1) = .live := by
  have hlt : n + 1 < (fr.fork block c).count := by simp [fork, ← hn]
  rw [(fills_fork hn hblock hstraight fun _ _ ↦ h).flow hblock (by simp), if_pos]
  refine (mem_targets_close h.next_lt).mpr (.inl ((h.target_iff hlt).mpr ?_))
  exact (mem_targets_fork hblock).mpr (.inr (.inr (by rw [hn])))

theorem flow_forkElse_body : (fr.forkElse block c).flow n = .live := by
  subst hn
  rw [((opens_forkElse hblock c).fills hblock hstraight).flow hblock (by simp [List.mem_range'_1]),
    if_pos ((mem_targets_forkElse hblock).mpr (.inr (.inl rfl)))]

theorem flow_forkElse_otherwise (h : Grows (fr.forkElse block c) n fr₁ m) :
    (fr₁.close m (n + 2)).flow (n + 1) = .live := by
  have hlt : n + 1 < (fr.forkElse block c).count := by simp [forkElse, ← hn]
  rw [(fills_forkElse hn hblock hstraight fun _ _ ↦ h).flow hblock (by simp), if_pos]
  refine (mem_targets_close h.next_lt).mpr (.inl ((h.target_iff hlt).mpr ?_))
  exact (mem_targets_forkElse hblock).mpr (.inr (.inr (by rw [hn])))

/-- Nothing but the ends of the branches leads to the block behind them. -/
theorem flow_forkElse_after (hclosed : fr.Closed) (h : Grows (fr.forkElse block c) n fr₁ m)
    (hotherwise : Grows (fr₁.close m (n + 2)) (n + 1) fr₂ p) :
    (fr₂.close p (n + 2)).flow (n + 2) = (fr₁.flow m).join (fr₂.flow p) := by
  have hbody := fills_forkElse hn hblock hstraight fun _ _ ↦ h
  have hlt : n + 2 < (fr.forkElse block c).count := by simp [forkElse, ← hn]
  have hlt₁ := (hbody.isPending (n + 2) (by simp)).2.1
  -- Before the branches are lowered nothing leads to the block behind them.
  have hfree : n + 2 ∉ (fr.forkElse block c).function.targets := by
    intro hmem
    rcases (mem_targets_forkElse hblock).mp hmem with hmem | hmem
    · have := hclosed _ hmem
      omega
    · omega
  rw [(hbody.otherwise hn fun _ _ ↦ hotherwise).flow hblock (by simp)]
  simp only [mem_targets_close hotherwise.next_lt, hotherwise.target_iff hlt₁,
    mem_targets_close h.next_lt, h.target_iff hlt, hfree, false_or, and_true, Flow.join]

end

/-! ## Loops -/

theorem mem_targets_turn {t : Tape} {c : Value} :
    fr.count + 1 ∈ (((fr.enterLoop block).withTape fr.count t).turn fr.count c).function.targets ∧
      fr.count + 2 ∈
        (((fr.enterLoop block).withTape fr.count t).turn fr.count c).function.targets := by
  have hlt : fr.count < ((fr.enterLoop block).withTape fr.count t).count := by
    simp [enterLoop]
    omega
  constructor <;> exact (mem_targets_extend hlt).mpr (.inr ⟨_, List.mem_singleton_self _, by
    simp [Instr.targets]⟩)

section

variable {t : Tape} {c : Value} (hblock : block < fr.count) (hstraight : Straight (fr.code block))
  (hcond : ((fr.enterLoop block).tape fr.count).Extends t)

include hblock hstraight hcond

theorem flow_turn_body :
    (((fr.enterLoop block).withTape fr.count t).turn fr.count c).flow (fr.count + 1) = .live := by
  rw [(fills_turn hblock hstraight hcond).flow hblock (by simp),
    if_pos mem_targets_turn.1]

theorem flow_loop_after
    (h : Grows (((fr.enterLoop block).withTape fr.count t).turn fr.count c) (fr.count + 1) fr₁ m) :
    (fr₁.close m fr.count).flow (fr.count + 2) = .live := by
  have hlt := ((fills_turn (c := c) hblock hstraight hcond).isPending (fr.count + 2) (by simp)).2.1
  rw [(fills_loop hblock hstraight hcond fun _ _ ↦ h).flow hblock (by simp), if_pos]
  exact (mem_targets_close h.next_lt).mpr
    (.inl ((h.target_iff hlt).mpr mem_targets_turn.2))

end

/-! ## Where lowering stands -/

/-- Lowering stands at the end of a block with the given flow. -/
structure Stands (fr : Frame) (block : Nat) (flow : Flow) : Prop where
  lt : block < fr.count
  tidy : Tidy (fr.code block)
  closed : fr.Closed
  flow : fr.flow block = flow

/-- Lowering stands at the start of a block, which is still empty. -/
structure Starts (fr : Frame) (block : Nat) (flow : Flow) : Prop extends fr.Stands block flow where
  empty : fr.code block = []

namespace Stands

variable {flow flow' : Flow}

theorem straight (h : fr.Stands block flow) (hopen : fr.function.isTerminated block = false) :
    Straight (fr.code block) :=
  Function.straight_of_tidy h.tidy hopen

/-- The entry of a function that has no instructions is live. -/
theorem entry (hcount : 0 < fr.count) (hcode : ∀ x, fr.code x = []) : fr.Stands 0 .live where
  lt := hcount
  tidy := by rw [hcode]; exact .inl straight_nil
  closed y hy := by
    obtain ⟨x, i, hi, -⟩ := mem_targets_iff.mp hy
    rw [hcode] at hi
    exact absurd hi List.not_mem_nil
  flow := by
    refine flow_eq_live_iff.mpr ⟨Function.isTerminated_of_straight ?_, by simp [Function.isDead]⟩
    rw [← code, hcode]
    exact straight_nil

theorem of_grows (h : fr.Stands block flow) (hgrows : fr.Grows block fr' next)
    (hflow : fr'.flow next = flow') : fr'.Stands next flow' :=
  ⟨hgrows.next_lt, hgrows.tidy, hgrows.closed h.closed, hflow⟩

theorem withTape {t : Tape} (h : fr.Stands block flow) (hstraight : Straight (fr.code block))
    (hextends : (fr.tape block).Extends t) :
    (fr.withTape block t).Stands block flow ∧ Straight ((fr.withTape block t).code block) := by
  obtain ⟨hgrows, hplain⟩ := grows_withTape h.lt hstraight hextends
  exact ⟨h.of_grows hgrows ((flow_withTape h.lt hstraight hextends).trans h.flow), hplain⟩

theorem of_assigns {outer : Outer} {ident : String} {v : Value} (h : fr.Stands block flow)
    (hstraight : Straight (fr.code block))
    (hassigns : Lowering.Assigns outer block ident v fr fr') :
    fr'.Stands block flow ∧ Straight (fr'.code block) := by
  obtain ⟨hgrows, hplain⟩ := grows_of_assigns h.lt hstraight hassigns
  exact ⟨h.of_grows hgrows ((flow_of_assigns h.lt hstraight hassigns).trans h.flow), hplain⟩

theorem of_binds {outer : Outer} {ps : List (String × Value)} (h : fr.Stands block flow)
    (hstraight : Straight (fr.code block)) (hbinds : Lowering.Binds outer block ps fr fr') :
    fr'.Stands block flow := by
  induction hbinds with
  | nil => exact h
  | cons assigned _ ih =>
    obtain ⟨hassigned, hplain⟩ := h.of_assigns hstraight assigned
    exact ih hassigned hplain

theorem starts {pending : List Nat} {n : Nat} (h : fr.Stands block flow)
    (hfills : fr.Fills block pending fr') (hn : n ∈ pending) (hflow : fr'.flow n = flow') :
    fr'.Starts n flow' where
  lt := (hfills.lt_and_tidy hn).1
  tidy := (hfills.lt_and_tidy hn).2
  closed := hfills.closed h.closed
  flow := hflow
  empty := (hfills.isPending n hn).2.2

section

variable {n p : Nat} {c : Value} (h : fr.Stands block flow) (hstraight : Straight (fr.code block))

include h hstraight

theorem fork (hn : fr.count = n) : (fr.fork block c).Starts n .live := by
  refine h.starts ((opens_fork h.lt c).fills h.lt hstraight) ?_ (flow_fork_body hn h.lt hstraight)
  simp [List.mem_range'_1, hn]

theorem behindFork (hn : fr.count = n) (hbody : Grows (fr.fork block c) n fr₁ m) :
    (fr₁.close m (n + 1)).Starts (n + 1) .live :=
  h.starts (fills_fork hn h.lt hstraight fun _ _ ↦ hbody) List.mem_cons_self
    (flow_fork_after hn h.lt hstraight hbody)

theorem forkElse (hn : fr.count = n) : (fr.forkElse block c).Starts n .live := by
  refine h.starts ((opens_forkElse h.lt c).fills h.lt hstraight) ?_
    (flow_forkElse_body hn h.lt hstraight)
  simp [List.mem_range'_1, hn]

theorem otherwise (hn : fr.count = n) (hbody : Grows (fr.forkElse block c) n fr₁ m) :
    (fr₁.close m (n + 2)).Starts (n + 1) .live :=
  h.starts (fills_forkElse hn h.lt hstraight fun _ _ ↦ hbody) List.mem_cons_self
    (flow_forkElse_otherwise hn h.lt hstraight hbody)

theorem behindForkElse (hn : fr.count = n) (hbody : Grows (fr.forkElse block c) n fr₁ m)
    (hotherwise : Grows (fr₁.close m (n + 2)) (n + 1) fr₂ p) :
    (fr₂.close p (n + 2)).Starts (n + 2) ((fr₁.flow m).join (fr₂.flow p)) := by
  have hfills := fills_forkElse hn h.lt hstraight fun _ _ ↦ hbody
  exact h.starts (hfills.otherwise hn fun _ _ ↦ hotherwise) List.mem_cons_self
    (flow_forkElse_after hn h.lt hstraight h.closed hbody hotherwise)

theorem turn {t : Tape} (hcond : ((fr.enterLoop block).tape fr.count).Extends t) :
    (((fr.enterLoop block).withTape fr.count t).turn fr.count c).Starts (fr.count + 1) .live :=
  h.starts (fills_turn h.lt hstraight hcond) List.mem_cons_self
    (flow_turn_body h.lt hstraight hcond)

theorem behindLoop {t : Tape} (hcond : ((fr.enterLoop block).tape fr.count).Extends t)
    (hbody : Grows (((fr.enterLoop block).withTape fr.count t).turn fr.count c) (fr.count + 1)
      fr₁ m) : (fr₁.close m fr.count).Starts (fr.count + 2) .live :=
  h.starts (fills_loop h.lt hstraight hcond fun _ _ ↦ hbody) List.mem_cons_self
    (flow_loop_after h.lt hstraight hcond hbody)

end

end Stands

end Frame

end BlockCompiler
