import BlockCompiler.Proofs.Declaration
import Mathlib.Data.List.Induction
import Mathlib.Data.List.Pairwise

/-!
# Assignments and the slots they need

A local variable is set up where it is assigned first, in whatever block that is. What the lowering
of a body has done to its function is therefore told by the list of the assignments that were
lowered, in the order of the text (`Frame.Traced`): the slots are those of their names, each
assignment has left one instruction that stores in the slot of its name, there are no other stores,
and a variable is read from the slot of its name. Lowering adds to that list the names that the text
assigns next, all of them or, if it is refused on the way, the first of them
(`Lowering.stmts_logs`).
-/

namespace BlockCompiler

/-! ## Assignments -/

/-- An assignment that was lowered: its name, its value, and the place of the instruction that
stores the value. -/
structure Assignment where
  ident : String
  value : Value
  block : Nat
  place : Nat
deriving DecidableEq

namespace Assignment

/-- The slot that would be set up for the assignment. -/
def slot (a : Assignment) : Slot := ⟨a.ident, a.value.ty⟩

/-- The slots that assignments set up, the latest one first. There is one for each name, for the
first value that is assigned to it. -/
def slots (log : List Assignment) : List Slot :=
  (log.map slot).reverse.pwFilter fun s t ↦ s.ident ≠ t.ident

variable {log : List Assignment} {a : Assignment} {ident : String}

theorem slots_concat_of_mem (h : a.ident ∈ (slots log).map Slot.ident) :
    slots (log ++ [a]) = slots log := by
  rw [slots, List.map_append, List.map_singleton, List.reverse_concat]
  refine List.pwFilter_cons_of_neg fun hall ↦ ?_
  obtain ⟨s, hs, hident⟩ := List.mem_map.mp h
  exact hall s hs hident.symm

theorem slots_concat_of_notMem (h : a.ident ∉ (slots log).map Slot.ident) :
    slots (log ++ [a]) = a.slot :: slots log := by
  rw [slots, List.map_append, List.map_singleton, List.reverse_concat]
  refine List.pwFilter_cons_of_pos fun s hs heq ↦ h ?_
  exact List.mem_map.mpr ⟨s, hs, heq.symm⟩

/-- No name has two slots. -/
theorem nodup_ident_slots (log : List Assignment) : ((slots log).map Slot.ident).Nodup :=
  List.pairwise_map.mpr (List.pairwise_pwFilter _)

/-- The names that have a slot are those that are assigned. -/
theorem mem_ident_slots :
    ident ∈ (slots log).map Slot.ident ↔ ident ∈ log.map Assignment.ident := by
  induction log using List.reverseRecOn with
  | nil => exact Iff.rfl
  | append_singleton log a ih =>
    rw [List.map_append, List.mem_append, ← ih, List.map_singleton, List.mem_singleton]
    by_cases h : a.ident ∈ (slots log).map Slot.ident
    · rw [slots_concat_of_mem h]
      exact ⟨.inl, fun hor ↦ hor.elim id fun heq ↦ heq ▸ h⟩
    · rw [slots_concat_of_notMem h, List.map_cons, List.mem_cons, or_comm]
      rfl

end Assignment

mutual

/-- The names that a statement assigns, in the order of the text. -/
def Stmt.assigned : Stmt → List String
  | .assign ident _ => [ident]
  | .ret _ | .eval _ => []
  | .ifThen _ body | .loop _ body => Stmt.allAssigned body
  | .ifElse _ body otherwise => Stmt.allAssigned body ++ Stmt.allAssigned otherwise
termination_by structural s => s

/-- The names that statements assign, in the order of the text. -/
def Stmt.allAssigned : List Stmt → List String
  | [] => []
  | s :: rest => s.assigned ++ Stmt.allAssigned rest
termination_by structural ss => ss

end

/-! ## Instructions and slots -/

/-- The instruction stores nothing, and a variable that it reads is read from the slot of its name.
-/
def Instr.ReadsSlot (slots : List Slot) : Instr → Prop
  | load address ident => ∃ index ty, slots[index]? = some ⟨ident, ty⟩ ∧ address = .slot index ty
  | store _ _ => False
  | _ => True

theorem getElem?_concat_eq_some_iff {α : Type} {xs : List α} {x y : α} {k : Nat} :
    (xs ++ [x])[k]? = some y ↔ xs[k]? = some y ∨ k = xs.length ∧ x = y := by
  rcases Nat.lt_trichotomy k xs.length with h | rfl | h
  · rw [List.getElem?_append_left h]
    simp [Nat.ne_of_lt h]
  · simp
  · rw [List.getElem?_eq_none (by simp; omega), List.getElem?_eq_none (Nat.le_of_lt h)]
    simp [Nat.ne_of_gt h]

namespace Function

/-- The stores of the function are those of the assignments, and each of them goes to the slot of
its name. Variables are read from the slots of their names. -/
structure Accesses (f : Function) (log : List Assignment) : Prop where
  stores : ∀ a ∈ log, ∃ index, f.slots[index]? = some a.slot ∧
    (f.code a.block)[a.place]? = some (.store a.value (.slot index a.slot.ty))
  logged : ∀ (b place : Nat) v address, (f.code b)[place]? = some (.store v address) →
    ∃ a ∈ log, a.block = b ∧ a.place = place
  distinct : (log.map fun a ↦ (a.block, a.place)).Nodup
  loads : ∀ b ident address, .load address ident ∈ f.code b →
    ∃ index ty, f.slots[index]? = some ⟨ident, ty⟩ ∧ address = .slot index ty

/-- The function has exactly the slots and the stores that the assignments need. -/
structure Slotted (f : Function) (log : List Assignment) : Prop extends f.Accesses log where
  slots : f.slots.reverse = Assignment.slots log

variable {f f' : Function} {log : List Assignment} {block : Nat}

/-- Slots may be added, and instructions that store nothing. -/
theorem Accesses.append (h : f.Accesses log) (hslots : f.slots <+: f'.slots)
    (hcode : ∀ b, ∃ more, f'.code b = f.code b ++ more ∧ ∀ i ∈ more, i.ReadsSlot f'.slots) :
    f'.Accesses log where
  stores a ha := by
    obtain ⟨index, hslot, hstore⟩ := h.stores a ha
    obtain ⟨more, hmore, -⟩ := hcode a.block
    exact ⟨index, getElem?_of_prefix hslots hslot, getElem?_of_prefix ⟨more, hmore.symm⟩ hstore⟩
  logged b place v address hstore := by
    obtain ⟨more, hmore, hreads⟩ := hcode b
    rw [hmore] at hstore
    rcases Nat.lt_or_ge place (f.code b).length with hlt | hge
    · rw [List.getElem?_append_left hlt] at hstore
      exact h.logged b place v address hstore
    · rw [List.getElem?_append_right hge] at hstore
      exact (hreads _ (List.mem_of_getElem? hstore)).elim
  distinct := h.distinct
  loads b ident address hload := by
    obtain ⟨more, hmore, hreads⟩ := hcode b
    rw [hmore, List.mem_append] at hload
    rcases hload with hload | hload
    · obtain ⟨index, ty, hslot, haddress⟩ := h.loads b ident address hload
      exact ⟨index, ty, getElem?_of_prefix hslots hslot, haddress⟩
    · exact hreads _ hload

theorem getElem?_code_extend {i j : Instr} {b place : Nat} (hlt : block < f.blocks.length) :
    ((f.extend block [i]).code b)[place]? = some j ↔
      (f.code b)[place]? = some j ∨ b = block ∧ place = (f.code block).length ∧ i = j := by
  by_cases hb : b = block
  · subst hb
    rw [code_extend hlt, getElem?_concat_eq_some_iff]
    simp
  · rw [code_extend_of_ne hb]
    simp [hb]

/-- A store in the slot of its name is one more assignment. -/
theorem Accesses.store {ident : String} {v : Value} {index : Nat} (h : f.Accesses log)
    (hlt : block < f.blocks.length) (hslot : f.slots[index]? = some ⟨ident, v.ty⟩) :
    (f.extend block [.store v (.slot index v.ty)]).Accesses
      (log ++ [⟨ident, v, block, (f.code block).length⟩]) := by
  refine ⟨fun a ha ↦ ?_, fun b place v' address hstore ↦ ?_, ?_, fun b x address hload ↦ ?_⟩
  · rcases List.mem_append.mp ha with ha | ha
    · obtain ⟨i, hi, hstore⟩ := h.stores a ha
      exact ⟨i, hi, (getElem?_code_extend hlt).mpr (.inl hstore)⟩
    · obtain rfl := List.mem_singleton.mp ha
      exact ⟨index, hslot, (getElem?_code_extend hlt).mpr (.inr ⟨rfl, rfl, rfl⟩)⟩
  · rcases (getElem?_code_extend hlt).mp hstore with hstore | ⟨rfl, rfl, -⟩
    · obtain ⟨a, ha, hplace⟩ := h.logged b place v' address hstore
      exact ⟨a, List.mem_append_left _ ha, hplace⟩
    · exact ⟨_, List.mem_append_right _ (List.mem_singleton_self _), rfl, rfl⟩
  · rw [List.map_append, List.map_singleton]
    refine List.nodup_append.mpr ⟨h.distinct, List.pairwise_singleton _ _, fun p hp q hq heq ↦ ?_⟩
    -- The new store stands behind all others of its block.
    obtain ⟨a, ha, rfl⟩ := List.mem_map.mp hp
    obtain ⟨i, -, hstore⟩ := h.stores a ha
    obtain ⟨hblock, hplace⟩ := Prod.mk.inj (heq.trans (List.mem_singleton.mp hq))
    rw [hblock, hplace, List.getElem?_eq_none (Nat.le_refl _)] at hstore
    exact nomatch hstore
  · obtain ⟨place, hplace⟩ := List.getElem?_of_mem hload
    rcases (getElem?_code_extend hlt).mp hplace with hplace | ⟨-, -, heq⟩
    · exact h.loads b x address (List.mem_of_getElem? hplace)
    · exact nomatch heq

end Function

/-! ## Functions under construction -/

/-- The function has the slots and the stores that the assignments need, and the local variables are
bound to the slots of their names. -/
structure Frame.Traced (log : List Assignment) (fr : Frame) : Prop
    extends fr.function.Slotted log where
  locals : ∀ ident b, fr.locals ident = some b ↔
    ∃ index, fr.function.slots[index]? = some ⟨ident, b.ty⟩ ∧ b.value = .slot index b.ty

namespace Frame.Traced

variable {fr fr' : Frame} {log : List Assignment} {block target : Nat}

theorem ident_mem_iff (h : fr.Traced log) {ident : String} :
    ident ∈ (Assignment.slots log).map Slot.ident ↔ (fr.locals ident).isSome := by
  rw [← h.slots, List.map_reverse, List.mem_reverse, List.mem_map]
  constructor
  · rintro ⟨s, hs, rfl⟩
    obtain ⟨index, hindex⟩ := List.getElem?_of_mem hs
    rw [(h.locals s.ident ⟨.slot index s.ty, s.ty⟩).mpr ⟨index, hindex, rfl⟩]
    rfl
  · intro hbound
    obtain ⟨b, hb⟩ := Option.isSome_iff_exists.mp hbound
    obtain ⟨index, hindex, -⟩ := (h.locals ident b).mp hb
    exact ⟨_, List.mem_of_getElem? hindex, rfl⟩

theorem readsSlot (h : fr.Traced log) {i : Instr} (hi : i.Reads fr.locals) :
    i.ReadsSlot fr.function.slots := by
  cases hi with
  | @load ident b bound =>
    obtain ⟨index, hslot, hvalue⟩ := (h.locals ident b).mp bound
    exact ⟨index, b.ty, hslot, hvalue⟩
  | arith | compare | test | promote | call => trivial

/-- A change that binds no variable, and adds no instruction that stores. -/
theorem append (h : fr.Traced log) (hslots : fr'.function.slots = fr.function.slots)
    (hlocals : fr'.locals = fr.locals) (hcode : ∀ b, ∃ more, fr'.code b = fr.code b ++ more ∧
      ∀ i ∈ more, i.ReadsSlot fr.function.slots) : fr'.Traced log where
  toAccesses := h.toAccesses.append (prefix_of_eq hslots) (hslots ▸ hcode)
  slots := hslots ▸ h.slots
  locals ident b := by rw [hlocals, hslots, h.locals]

theorem extend {more : List Instr} (h : fr.Traced log)
    (hmore : ∀ i ∈ more, i.ReadsSlot fr.function.slots) : (fr.extend block more).Traced log := by
  refine h.append rfl rfl fun b ↦ ?_
  obtain ⟨new, hnew, hsub⟩ := exists_code_extend fr block more b
  exact ⟨new, hnew, fun i hi ↦ hmore i (hsub i hi)⟩

theorem withTape {t : Tape} (h : fr.Traced log)
    (ht : (fr.tape block).Appends (Instr.Reads fr.locals) t) :
    (fr.withTape block t).Traced log := by
  obtain ⟨more, hmore, hreads⟩ := ht.code
  have heq : fr.withTape block t = { fr.extend block more with symbols := t.symbols } := by
    rw [Frame.withTape, hmore]
    rfl
  have hextend : (fr.extend block more).Traced log := h.extend fun i hi ↦ h.readsSlot (hreads i hi)
  rw [heq]
  exact ⟨hextend.toSlotted, hextend.locals⟩

theorem child {role : Role} (h : fr.Traced log) : (fr.child block role).Traced log :=
  h.append rfl rfl fun b ↦ ⟨[], by rw [code_child, List.append_nil], List.forall_mem_nil _⟩

theorem close (h : fr.Traced log) : (fr.close block target).Traced log := by
  unfold Frame.close
  split
  · exact h
  · split <;> exact h.extend (by simp [Instr.ReadsSlot])

/-- A variable that is bound is assigned in its slot. -/
theorem assign_known {ident : String} {v : Value} {b : Binding} (h : fr.Traced log)
    (hlt : block < fr.count) (hbound : fr.locals ident = some b) (hty : b.ty = v.ty) :
    (fr.extend block [.store v b.value]).Traced
      (log ++ [⟨ident, v, block, (fr.code block).length⟩]) := by
  obtain ⟨index, hslot, hvalue⟩ := (h.locals ident b).mp hbound
  rw [hvalue, hty]
  refine ⟨⟨h.store hlt (hty ▸ hslot), ?_⟩, h.locals⟩
  rw [Assignment.slots_concat_of_mem (h.ident_mem_iff.mpr (by simp [hbound]))]
  exact h.slots

/-- A variable that is not bound is given a slot, and is assigned there. -/
theorem assign_first {ident : String} {v : Value} (h : fr.Traced log) (hlt : block < fr.count)
    (hunbound : fr.locals ident = none) :
    ((fr.declare ident v.ty).extend block
      [.store v (.slot fr.function.slots.length v.ty)]).Traced
      (log ++ [⟨ident, v, block, (fr.code block).length⟩]) := by
  have hdeclare : (fr.declare ident v.ty).function.Accesses log :=
    h.toAccesses.append (List.prefix_append _ _) fun b ↦ ⟨[], (List.append_nil _).symm,
      List.forall_mem_nil _⟩
  have hnew : ident ∉ (Assignment.slots log).map Slot.ident := fun hmem ↦ by
    have hbound := h.ident_mem_iff.mp hmem
    rw [hunbound] at hbound
    exact absurd hbound nofun
  refine ⟨⟨hdeclare.store hlt List.getElem?_concat_length, ?_⟩, fun x b ↦ ?_⟩
  · rw [Assignment.slots_concat_of_notMem hnew, ← h.slots]
    exact List.reverse_concat
  · change (if x = ident then some ⟨_, _⟩ else fr.locals x) = some b ↔ ∃ index,
      (fr.function.slots ++ [⟨ident, v.ty⟩])[index]? = some ⟨x, b.ty⟩ ∧ b.value = .slot index b.ty
    simp only [getElem?_concat_eq_some_iff, or_and_right, exists_or, ← h.locals]
    split
    · next hx =>
      subst hx
      rw [hunbound]
      constructor
      · intro heq
        obtain rfl := Option.some.inj heq
        exact .inr ⟨_, ⟨rfl, rfl⟩, rfl⟩
      · rintro (hnone | ⟨_, ⟨rfl, hslot⟩, hvalue⟩)
        · exact nomatch hnone
        · rw [(Slot.mk.inj hslot).2, ← hvalue]
    · next hx => simp [Ne.symm hx]

/-- A body starts without assignments. -/
theorem enter (head : Prototype) (hblocks : fr.function.blocks = [])
    (hslots : fr.function.slots = []) : (fr.enter head).Traced [] := by
  have hcode (b : Nat) : (fr.enter head).function.code b = [] := code_enter_of_nil head hblocks b
  have hnone : (fr.enter head).function.slots = [] := hslots
  refine ⟨⟨⟨nofun, fun b place v address h ↦ ?_, List.nodup_nil, fun b x address h ↦ ?_⟩, ?_⟩,
    fun x b ↦ ?_⟩
  · rw [hcode] at h
    exact nomatch h
  · rw [hcode] at h
    exact nomatch h
  · rw [hnone]
    rfl
  · rw [hnone]
    exact ⟨nofun, nofun⟩

end Frame.Traced

/-! ## Steps -/

namespace Frame

/-- The function is traced by the given assignments, and by others with the given names behind them.
-/
def TracedBy (log : List Assignment) (names : List String) (fr : Frame) : Prop :=
  ∃ more, more.map Assignment.ident = names ∧ fr.Traced (log ++ more)

theorem Traced.tracedBy_nil {log : List Assignment} {fr : Frame} (h : fr.Traced log) :
    fr.TracedBy log [] :=
  ⟨[], rfl, (List.append_nil log).symm ▸ h⟩

end Frame

namespace Lowering

open BlockCompiler.Frame

section

variable {α β : Type} {m : Lowering Frame α} {f : α → Lowering Frame β} {most : Nat}
  {names names' : List String} {reach : α → Nat} {reach' : β → Nat}

/-- Where the blocks up to `most` exist, the step assigns the names in this order, or the first of
them if it is refused; the blocks up to `reach` exist afterwards. -/
def Logs (most : Nat) (m : Lowering Frame α) (names : List String) (reach : α → Nat) : Prop :=
  ∀ log k, Triple (fun fr ↦ fr.Traced log ∧ most < fr.count ∧ k < fr.count) m
    (fun a fr ↦ fr.TracedBy log names ∧ k < fr.count ∧ reach a < fr.count)
    fun fr ↦ ∃ first, first <+: names ∧ fr.TracedBy log first

theorem Logs.mono {most' : Nat} (h : Logs most m names reach) (hle : most ≤ most') :
    Logs most' m names reach := fun log k ↦
  (h log k).weaken (fun _ hfr ↦ ⟨hfr.1, Nat.lt_of_le_of_lt hle hfr.2.1, hfr.2.2⟩) fun _ _ h ↦ h

theorem Logs.bind (hm : Logs most m names reach)
    (hf : ∀ a, Logs (max most (reach a)) (f a) names' reach') :
    Logs most (m >>= f) (names ++ names') reach' := by
  intro log k fr ⟨htraced, hmost, hk⟩
  have hfirst := hm log (max most k) fr ⟨htraced, hmost, Nat.max_lt.mpr ⟨hmost, hk⟩⟩
  rw [bind_apply]
  generalize m fr = r at hfirst ⊢
  rcases r with ⟨_ | a, fr₁⟩
  · obtain ⟨first, hprefix, htraced⟩ := hfirst
    exact ⟨first, hprefix.trans (List.prefix_append _ _), htraced⟩
  · obtain ⟨⟨more, rfl, htraced⟩, hcount, hreach⟩ := hfirst
    obtain ⟨hmost, hk⟩ := Nat.max_lt.mp hcount
    have hsecond := hf a (log ++ more) k fr₁ ⟨htraced, Nat.max_lt.mpr ⟨hmost, hreach⟩, hk⟩
    change Ends _ _ (f a fr₁)
    generalize f a fr₁ = r at hsecond ⊢
    rcases r with ⟨_ | b, fr₂⟩
    · obtain ⟨_, hprefix, more', rfl, htraced⟩ := hsecond
      refine ⟨_, (List.prefix_append_right_inj _).mpr hprefix, more ++ more', List.map_append, ?_⟩
      rwa [← List.append_assoc]
    · obtain ⟨⟨more', rfl, htraced⟩, hcounts⟩ := hsecond
      refine ⟨⟨more ++ more', List.map_append, ?_⟩, hcounts⟩
      rwa [← List.append_assoc]

/-- What assigns nothing may stand in front. -/
theorem Logs.nil_bind (hm : Logs most m [] reach)
    (hf : ∀ a, Logs (max most (reach a)) (f a) names' reach') : Logs most (m >>= f) names' reach' :=
  hm.bind hf

/-- What assigns nothing may stand behind. -/
theorem Logs.bind_nil (hm : Logs most m names reach)
    (hf : ∀ a, Logs (max most (reach a)) (f a) [] reach') : Logs most (m >>= f) names reach' := by
  have h := hm.bind hf
  rwa [List.append_nil] at h

theorem logs_pure {a : α} (h : reach a ≤ most) : Logs most (pure a) [] reach :=
  fun _ _ _ hfr ↦ ⟨hfr.1.tracedBy_nil, hfr.2.2, Nat.lt_of_le_of_lt h hfr.2.1⟩

/-- A step that needs no new assignment to be traced. -/
theorem logs_of_moves (hm : ∀ log, Moves (Keeps (Traced log)) m) (hextends : Moves Extends m) :
    Logs most m [] fun _ ↦ 0 := by
  intro log k fr ⟨htraced, hmost, hk⟩
  have hpost := hm log fr htraced
  have hcount := (hextends fr).count_le
  generalize m fr = r at hpost hcount ⊢
  rcases r with ⟨_ | a, fr₁⟩
  · exact ⟨[], List.prefix_refl _, hpost.tracedBy_nil⟩
  · exact ⟨hpost.tracedBy_nil, Nat.lt_of_lt_of_le hk hcount, Nat.zero_lt_of_lt
      (Nat.lt_of_lt_of_le hk hcount)⟩

end

variable {outer : Outer} {block most : Nat}

theorem requireOpen_logs : Logs most (requireOpen block) [] fun _ ↦ 0 :=
  logs_of_moves (fun _ ↦ Invariant.requireOpen_keeps block) (requireOpen_moves block)

theorem within_logs {α : Type} {m : Env → Lowering Tape α}
    (h : ∀ env, Reads env.locals (m env)) :
    Logs most (within outer block m) [] fun _ ↦ 0 :=
  logs_of_moves (fun _ fr hfr ↦ hfr.withTape (h (fr.env outer) (fr.tape block)))
    (within_moves outer block fun env ↦ (h env).moves)

theorem emitPlain_logs {i : Instr} (h : ∀ slots, i.ReadsSlot slots) :
    Logs most (onBlock block (emitPlain i)) [] fun _ ↦ 0 :=
  logs_of_moves (fun _ _ hfr ↦ hfr.extend fun _ hi ↦ List.mem_singleton.mp hi ▸ h _)
    (emitPlain_moves block i)

theorem returnValue_logs {v : Value} :
    Logs most (returnValue outer block v) [] fun _ ↦ 0 :=
  logs_of_moves (fun _ ↦ moves_state.bind fun _ ↦ (moves_require _ _).bind fun _ fr hfr ↦
    hfr.extend (by simp [Instr.ReadsSlot])) (returnValue_moves outer block v)

theorem close_logs (target : Nat) : Logs most (close block target) [] fun _ ↦ 0 :=
  logs_of_moves (fun _ fr hfr ↦ by rw [close_apply]; exact hfr.close) (close_moves block target)

/-- A name is assigned in the block where control is. -/
theorem assign_logs (ident : String) (v : Value) (hle : block ≤ most) :
    Logs most (assign outer block ident v) [ident] fun _ ↦ 0 := by
  intro log k fr ⟨htraced, hmost, hk⟩
  have hlt := Nat.lt_of_le_of_lt hle hmost
  have hnone : ∃ first, first <+: [ident] ∧ fr.TracedBy log first :=
    ⟨[], List.nil_prefix, htraced.tracedBy_nil⟩
  cases hlocal : fr.locals ident with
  | some b =>
    rw [assign_apply_of_some hlocal, store_apply]
    split
    · split
      · next hty =>
        exact ⟨⟨[_], rfl, htraced.assign_known hlt hlocal hty⟩, by simpa using hk, by
          simpa using Nat.zero_lt_of_lt hk⟩
      · exact hnone
    · exact hnone
  | none =>
    rw [assign_apply_of_none hlocal]
    split
    · split
      · split
        · simp only [store_apply, Value.kind, ↓reduceIte]
          exact ⟨⟨[_], rfl, htraced.assign_first hlt hlocal⟩, by simpa using hk, by
            simpa using Nat.zero_lt_of_lt hk⟩
        · exact hnone
      · exact hnone
    · exact hnone

/-- The blocks of a statement are created before those of its bodies are filled. -/
theorem updating_logs {g : Frame → Frame} {k : Nat}
    (htraced : ∀ log fr, Frame.Traced log fr → (g fr).Traced log)
    (hcount : ∀ fr, (g fr).count = fr.count + (k + 1)) :
    Logs most (updating fun fr ↦ (fr.count, g fr)) [] (· + k) := by
  intro log least fr ⟨h, _, hleast⟩
  refine ⟨(htraced log fr h).tracedBy_nil, ?_, ?_⟩
  · exact hcount fr ▸ Nat.lt_add_right _ hleast
  · exact hcount fr ▸ Nat.lt_succ_self _

theorem fork_logs (c : Value) :
    Logs most (updating fun fr ↦ (fr.count, fr.fork block c)) [] (· + 1) :=
  updating_logs (fun _ _ h ↦ h.child.child.extend (by simp [Instr.ReadsSlot]))
    fun fr ↦ by simp [Frame.fork]

theorem forkElse_logs (c : Value) :
    Logs most (updating fun fr ↦ (fr.count, fr.forkElse block c)) [] (· + 2) :=
  updating_logs (fun _ _ h ↦ h.child.child.child.extend (by simp [Instr.ReadsSlot]))
    fun fr ↦ by simp [Frame.forkElse]

theorem enterLoop_logs :
    Logs most (updating fun fr ↦ (fr.count, fr.enterLoop block)) [] (· + 2) :=
  updating_logs (fun _ _ h ↦ h.child.child.child.extend (by simp [Instr.ReadsSlot]))
    fun fr ↦ by simp [Frame.enterLoop]

mutual

theorem stmt_logs : ∀ s block, Logs block (stmt outer s block) s.assigned fun next ↦ next
  | .assign ident value, block => by
    rw [stmt, Stmt.assigned]
    exact requireOpen_logs.nil_bind fun _ ↦
      (within_logs fun env ↦ expr_reads env value).nil_bind fun v ↦
      (assign_logs ident v (by omega)).bind_nil fun _ ↦ logs_pure (by omega)
  | .ret value, block => by
    rw [stmt, Stmt.assigned]
    exact requireOpen_logs.nil_bind fun _ ↦
      (within_logs fun env ↦ expr_reads env value).nil_bind fun v ↦
      returnValue_logs.nil_bind fun _ ↦ logs_pure (by omega)
  | .ifThen cond body, block => by
    rw [stmt, Stmt.assigned]
    refine requireOpen_logs.nil_bind fun _ ↦
      (within_logs fun env ↦ condition_reads env cond).nil_bind fun c ↦ ?_
    rw [fork_bind]
    exact (fork_logs c).nil_bind fun n ↦
      ((stmts_logs body n).mono (by omega)).bind_nil fun bodyEnd ↦
      (close_logs _).nil_bind fun _ ↦ logs_pure (by omega)
  | .ifElse cond body otherwise, block => by
    rw [stmt, Stmt.assigned]
    refine requireOpen_logs.nil_bind fun _ ↦
      (within_logs fun env ↦ condition_reads env cond).nil_bind fun c ↦ ?_
    rw [forkElse_bind]
    exact (forkElse_logs c).nil_bind fun n ↦
      ((stmts_logs body n).mono (by omega)).bind fun bodyEnd ↦
      (close_logs _).nil_bind fun _ ↦
      ((stmts_logs otherwise (n + 1)).mono (by omega)).bind_nil fun otherwiseEnd ↦
      (close_logs _).nil_bind fun _ ↦ logs_pure (by omega)
  | .loop cond body, block => by
    rw [stmt, Stmt.assigned]
    refine requireOpen_logs.nil_bind fun _ ↦ ?_
    rw [enterLoop_bind]
    exact enterLoop_logs.nil_bind fun n ↦
      (within_logs fun env ↦ condition_reads env cond).nil_bind fun c ↦
      (emitPlain_logs (by simp [Instr.ReadsSlot])).nil_bind fun _ ↦
      ((stmts_logs body (n + 1)).mono (by omega)).bind_nil fun bodyEnd ↦
      (close_logs _).nil_bind fun _ ↦ logs_pure (by omega)
  | .eval value, block => by
    rw [stmt.eq_def, Stmt.assigned]
    refine requireOpen_logs.nil_bind fun _ ↦ ?_
    cases value with
    | call ident args =>
      exact (within_logs fun env ↦ call_reads env ident args).nil_bind fun _ ↦ logs_pure (by omega)
    | number | text | name | binary =>
      exact (within_logs fun env ↦ expr_reads env _).nil_bind fun _ ↦ logs_pure (by omega)
termination_by structural s => s

theorem stmts_logs :
    ∀ ss block, Logs block (stmts outer ss block) (Stmt.allAssigned ss) fun next ↦ next
  | [], block => logs_pure (Nat.le_refl block)
  | s :: rest, block => by
    rw [stmts, Stmt.allAssigned]
    exact (stmt_logs s block).bind fun next ↦ (stmts_logs rest next).mono (by omega)
termination_by structural ss => ss

end

theorem bindParams_logs (ps : List (String × Value)) (hle : block ≤ most) :
    Logs most (bindParams outer block ps) (ps.map Prod.fst) fun _ ↦ 0 := by
  induction ps generalizing most with
  | nil => exact logs_pure (Nat.zero_le most)
  | cons p rest ih =>
    exact (assign_logs p.1 p.2 hle).bind fun _ ↦ (Nat.max_zero most).symm ▸ ih hle

theorem finish_logs (head : Prototype) : Logs most (finish head block) [] fun _ ↦ 0 := by
  refine logs_of_moves (fun log fr hfr ↦ ?_) (finish_moves head block)
  rw [finish, bind_state_apply]
  split
  · exact hfr
  · split
    · exact hfr.extend (by simp [Instr.ReadsSlot])
    · rw [bind_require_apply]
      split
      · exact hfr.extend (by simp [Instr.ReadsSlot])
      · exact hfr

/-- What is left of the body of a function that had none: the parameters are assigned first, and
then what the text assigns, all of it if the body is accepted. -/
theorem body_slotted (head : Prototype) (ss : List Stmt) (outer : Outer) (fr : Frame)
    (hblocks : fr.function.blocks = []) (hslots : fr.function.slots = []) :
    let names := ((fr.enter head).function.bindings head).map Prod.fst ++ Stmt.allAssigned ss
    ∃ log, (body head ss outer fr).2.function.Slotted log ∧
      log.map Assignment.ident <+: names ∧
      ((body head ss outer fr).1 = .ok () → log.map Assignment.ident = names) := by
  intro names
  have hlogs : Logs fr.count (bindParams outer fr.count ((fr.enter head).function.bindings head) >>=
      fun _ ↦ stmts outer ss fr.count >>= finish head) names fun _ ↦ 0 :=
    (bindParams_logs _ (Nat.le_refl _)).bind fun _ ↦
      ((stmts_logs ss fr.count).mono (by omega)).bind_nil fun last ↦ finish_logs head
  have hpost := hlogs [] 0 (fr.enter head) ⟨.enter head hblocks hslots, by simp, by simp⟩
  rw [body_apply]
  simp only [← bind_assoc]
  rw [bind_apply, bind_assoc]
  generalize (_ >>= _ : Lowering Frame Unit) (fr.enter head) = r at hpost ⊢
  rcases r with ⟨_ | _, fr₁⟩
  · obtain ⟨_, hprefix, log, rfl, htraced⟩ := hpost
    exact ⟨log, htraced.toSlotted, hprefix, nofun⟩
  · obtain ⟨⟨log, hnames, htraced⟩, -⟩ := hpost
    exact ⟨log, htraced.toSlotted, prefix_of_eq hnames.symm, fun _ ↦ hnames⟩

end Lowering

end BlockCompiler
