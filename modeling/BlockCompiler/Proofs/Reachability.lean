import BlockCompiler.Proofs.Flow
import Mathlib.Logic.Relation

/-!
# Where control goes

In a function that was lowered without error, control never comes to a block that ends as
unreachable. A path of branches from the entry goes on forever or comes to a return, and in a
function with a result the return has a value (`Lowering.returns_of_define`).

## Why dead blocks stay dead

Whether a block is dead is decided once, when it is closed, from the branches that are there at that
moment. What is lowered later leads to blocks that are new then, to a block behind a conditional, or
back to the condition of a loop. The first two are still empty when a branch to them is appended,
and the last one ends in a branch; so no branch is ever appended that leads to a block which ends as
unreachable (`Frame.Guarded`).
-/

namespace BlockCompiler

namespace Function

/-- The last instruction of a block. -/
def EndsIn (f : Function) (b : Nat) (i : Instr) : Prop := (f.code b).getLast? = some i

/-- A branch at the end of block `b` goes on to block `x`. -/
def Leads (f : Function) (b x : Nat) : Prop := ∃ i ∈ f.code b, x ∈ i.targets

/-- A path of branches from the entry, as long as possible: at every step the block that control has
come to, or none behind its end. -/
structure Path (f : Function) (path : Nat → Option Nat) : Prop where
  start : path 0 = some 0
  step : ∀ n b x, path n = some b → path (n + 1) = some x → f.Leads b x
  goesOn : ∀ n b x, path n = some b → f.Leads b x → path (n + 1) ≠ none
  stays : ∀ n, path n = none → path (n + 1) = none

variable {f : Function} {b x : Nat}

theorem mem_targets_of_leads (h : f.Leads b x) : x ∈ f.targets := mem_targets_iff.mpr ⟨b, h⟩

open Classical in
/-- Some path from the entry goes on as long as there is a branch. -/
theorem exists_path (f : Function) : ∃ path, f.Path path := by
  let next (b : Nat) : Option Nat := if h : ∃ x, f.Leads b x then some h.choose else none
  refine ⟨Nat.rec (some 0) fun _ here ↦ here.bind next, rfl, fun n b x hb hx ↦ ?_,
    fun n b x hb hleads hnone ↦ ?_, fun n hn ↦ ?_⟩
  · simp only [hb, Option.bind_some, next] at hx
    split at hx
    · next h =>
      obtain rfl := Option.some.inj hx
      exact h.choose_spec
    · exact absurd hx (by simp)
  · simp only [hb, Option.bind_some, next] at hnone
    rw [dif_pos ⟨x, hleads⟩] at hnone
    exact absurd hnone (by simp)
  · simp only [hn, Option.bind_none]

/-- What a path has come to is reached from the entry. -/
theorem Path.reaches {path : Nat → Option Nat} (h : f.Path path) (n : Nat)
    (hb : path n = some b) : Relation.ReflTransGen f.Leads 0 b := by
  induction n generalizing b with
  | zero =>
    obtain rfl := Option.some.inj (h.start.symm.trans hb)
    exact .refl
  | succ n ih =>
    cases hn : path n with
    | none => exact absurd (h.stays n hn ▸ hb) (by simp)
    | some a => exact (ih hn).tail (h.step n a b hn hb)

/-- A path that does not go on forever has a last block. -/
theorem Path.forever_or_ends {path : Nat → Option Nat} (h : f.Path path) :
    (∀ n, (path n).isSome) ∨ ∃ n b, path n = some b ∧ path (n + 1) = none := by
  refine Classical.or_iff_not_imp_right.mpr fun hlast n ↦ ?_
  induction n with
  | zero => rw [h.start, Option.isSome_some]
  | succ n ih =>
    obtain ⟨b, hb⟩ := Option.isSome_iff_exists.mp ih
    exact Option.isSome_iff_ne_none.mpr fun hnone ↦ hlast ⟨n, b, hb, hnone⟩

/-- A block that is reached is a block of the function. -/
theorem WellFormed.lt_of_reaches (h : f.WellFormed) (hb : Relation.ReflTransGen f.Leads 0 b) :
    b < f.blocks.length := by
  rcases hb.cases_tail with rfl | ⟨a, -, hleads⟩
  · exact List.length_pos_iff.mpr h.hasEntry
  · exact h.targets_lt b (mem_targets_of_leads hleads)

/-- A block of a well-formed function leads to another one, unless it ends in a return or as
unreachable. -/
theorem WellFormed.leads_or_endsIn (h : f.WellFormed) (hb : b < f.blocks.length) :
    (∃ x, f.Leads b x) ∨ (∃ value, f.EndsIn b (.ret value)) ∨ f.EndsIn b .unreachable := by
  obtain ⟨body, last, hcode, -, hterm⟩ := h.isSealed _ (List.getElem_mem hb)
  have hcode : f.code b = body ++ [last] :=
    (code_of_getElem? (List.getElem?_eq_getElem hb)).trans hcode
  have hmem : last ∈ f.code b := hcode ▸ List.mem_concat_self
  have hends : f.EndsIn b last := by rw [EndsIn, hcode, List.getLast?_concat]
  cases last with
  | ret value => exact .inr (.inl ⟨value, hends⟩)
  | unreachable => exact .inr (.inr hends)
  | jump target => exact .inl ⟨target, _, hmem, by simp [Instr.targets]⟩
  | branch cond ifTrue ifFalse => exact .inl ⟨ifTrue, _, hmem, by simp [Instr.targets]⟩
  | load | store | arith | compare | test | promote | call =>
    exact absurd hterm (by simp [Instr.isTerminator])

end Function

/-! ## Blocks that end as unreachable -/

namespace Frame

variable {fr fr₁ fr₂ fr' : Frame} {block m n target : Nat} {c : Value} {ret : Ty}

/-- Nothing leads to a block that ends as unreachable, and every return of a function with a result
has a value. -/
structure Guarded (fr : Frame) (ret : Ty) : Prop where
  unreached : ∀ b, fr.function.EndsIn b .unreachable → b ≠ 0 ∧ b ∉ fr.function.targets
  valued : ∀ b, .ret none ∈ fr.code b → ret = .void

theorem not_endsIn_of_nil {i : Instr} (h : fr.code block = []) : ¬fr.function.EndsIn block i := by
  intro hends
  rw [Function.EndsIn, ← code, h] at hends
  exact absurd hends (by simp)

theorem guarded_of_nil (h : ∀ b, fr.code b = []) : fr.Guarded ret where
  unreached b hends := absurd hends (not_endsIn_of_nil (h b))
  valued b hmem := absurd (h b ▸ hmem) List.not_mem_nil

/-- What leads where depends on the code alone. -/
theorem Guarded.congr (h : fr.Guarded ret) (hcode : ∀ b, fr'.code b = fr.code b) :
    fr'.Guarded ret where
  unreached b hends := by
    rw [Function.EndsIn, ← code, hcode] at hends
    obtain ⟨hne, hfree⟩ := h.unreached b hends
    refine ⟨hne, fun hmem ↦ hfree ?_⟩
    simpa only [mem_targets_iff, hcode] using hmem
  valued b hmem := h.valued b (hcode b ▸ hmem)

theorem Guarded.child {parent : Nat} {role : Role} (h : fr.Guarded ret) :
    (fr.child parent role).Guarded ret :=
  h.congr code_child

/-- Appending an instruction that leads to no block which ends as unreachable. -/
theorem Guarded.extend {i : Instr} (h : fr.Guarded ret) (hblock : block < fr.count)
    (htargets : ∀ y ∈ i.targets, ¬fr.function.EndsIn y .unreachable)
    (hdead : i = .unreachable → fr.function.isDead block = true)
    (hvalued : i = .ret none → ret = .void) :
    (fr.extend block [i]).Guarded ret where
  unreached b hends := by
    by_cases hb : b = block
    · subst hb
      rw [Function.EndsIn, ← code, code_extend hblock, List.getLast?_concat,
        Option.some.injEq] at hends
      have hisDead := hdead hends
      rw [Function.isDead, Bool.and_eq_true, decide_eq_true_eq, decide_eq_true_eq] at hisDead
      refine ⟨hisDead.1, fun hmem ↦ ?_⟩
      rcases (mem_targets_extend hblock).mp hmem with hmem | ⟨j, hj, hmem⟩
      · exact hisDead.2 hmem
      · rw [List.mem_singleton.mp hj, hends] at hmem
        exact absurd hmem List.not_mem_nil
    · rw [Function.EndsIn, ← code, code_extend_of_ne hb] at hends
      obtain ⟨hne, hfree⟩ := h.unreached b hends
      refine ⟨hne, fun hmem ↦ ?_⟩
      rcases (mem_targets_extend hblock).mp hmem with hmem | ⟨j, hj, hmem⟩
      · exact hfree hmem
      · rw [List.mem_singleton.mp hj] at hmem
        exact htargets b hmem hends
  valued b hmem := by
    by_cases hb : b = block
    · subst hb
      rw [code_extend hblock, List.mem_append, List.mem_singleton] at hmem
      exact hmem.elim (h.valued b) fun heq ↦ hvalued heq.symm
    · exact h.valued b (code_extend_of_ne hb ▸ hmem)

theorem Guarded.withTape {t : Tape} (h : fr.Guarded ret) (hblock : block < fr.count)
    (hstraight : Straight (fr.code block)) (hextends : (fr.tape block).Extends t) :
    (fr.withTape block t).Guarded ret := by
  obtain ⟨hgrows, hplain⟩ := grows_withTape hblock hstraight hextends
  have hopen := Function.isTerminated_of_straight hplain
  refine ⟨fun b hends ↦ ?_, fun b hmem ↦ ?_⟩
  · have hb : b ≠ block := by
      rintro rfl
      rw [Function.isTerminated_eq, hends] at hopen
      exact absurd hopen (by simp [Instr.isTerminator])
    rw [Function.EndsIn, ← code, code_withTape_of_ne hb] at hends
    obtain ⟨hne, hfree⟩ := h.unreached b hends
    have hlt : b < fr.count := Function.lt_of_mem_code (List.mem_of_getLast? hends)
    exact ⟨hne, fun hmem ↦ hfree ((hgrows.target_iff hlt).mp hmem)⟩
  · by_cases hb : b = block
    · subst hb
      exact absurd (hplain _ hmem) (by simp [Instr.isTerminator])
    · rw [code_withTape_of_ne hb] at hmem
      exact h.valued b hmem

theorem Guarded.of_assigns {outer : Outer} {ident : String} {v : Value} (h : fr.Guarded ret)
    (hblock : block < fr.count) (hassigns : Lowering.Assigns outer block ident v fr fr') :
    fr'.Guarded ret := by
  cases hassigns with
  | known => exact h.extend hblock (by simp [Instr.targets]) (by simp) (by simp)
  | first =>
    have hdeclare : (fr.declare ident v.ty).Guarded ret := h.congr code_declare
    exact hdeclare.extend (by simpa using hblock) (by simp [Instr.targets]) (by simp) (by simp)

/-! ## Conditionals and loops -/

/-- The new blocks are still empty when the instruction that leads to them is appended. -/
theorem Guarded.fork (h : fr.Guarded ret) (hblock : block < fr.count) :
    (fr.fork block c).Guarded ret := by
  refine h.child.child.extend (by simp; omega) (fun y hy ↦ not_endsIn_of_nil ?_) (by simp)
    (by simp)
  have hy : y = fr.count ∨ y = fr.count + 1 := by simpa [Instr.targets] using hy
  rw [code_child, code_child, code_of_le (by omega)]

theorem Guarded.forkElse (h : fr.Guarded ret) (hblock : block < fr.count) :
    (fr.forkElse block c).Guarded ret := by
  refine h.child.child.child.extend (by simp; omega) (fun y hy ↦ not_endsIn_of_nil ?_) (by simp)
    (by simp)
  have hy : y = fr.count ∨ y = fr.count + 1 := by simpa [Instr.targets] using hy
  rw [code_child, code_child, code_child, code_of_le (by omega)]

theorem Guarded.enterLoop (h : fr.Guarded ret) (hblock : block < fr.count) :
    (fr.enterLoop block).Guarded ret := by
  refine h.child.child.child.extend (by simp; omega) (fun y hy ↦ not_endsIn_of_nil ?_) (by simp)
    (by simp)
  have hy : y = fr.count := by simpa [Instr.targets] using hy
  rw [code_child, code_child, code_child, code_of_le (by omega)]

theorem Guarded.turn {t : Tape} (h : (fr.enterLoop block).Guarded ret) (hblock : block < fr.count)
    (hcond : ((fr.enterLoop block).tape fr.count).Extends t) :
    (((fr.enterLoop block).withTape fr.count t).turn fr.count c).Guarded ret := by
  have hopens := opens_enterLoop hblock
  have hempty {y : Nat} (hy : fr.count ≤ y) : (fr.enterLoop block).code y = [] := by
    rw [hopens.code_of_ne y (by omega), code_of_le hy]
  have hlt : fr.count < (fr.enterLoop block).count := by rw [hopens.count_eq]; omega
  refine (h.withTape hlt ((hempty (Nat.le_refl _)).symm ▸ straight_nil) hcond).extend
    (by rwa [count_withTape]) (fun y hy ↦ not_endsIn_of_nil ?_) (by simp) (by simp)
  have hy : y = fr.count + 1 ∨ y = fr.count + 2 := by simpa [Instr.targets] using hy
  rw [code_withTape_of_ne (by omega), hempty (by omega)]

/-- A live block that is closed leads to the target; a dead one ends as unreachable. -/
theorem Guarded.close (h : fr.Guarded ret) (hm : m < fr.count)
    (htarget : ¬fr.function.EndsIn target .unreachable) : (fr.close m target).Guarded ret := by
  rcases close_eq fr m target with ⟨-, heq⟩ | ⟨-, i, ⟨rfl, hdead⟩ | ⟨rfl, -⟩, heq⟩
  · rwa [heq]
  · rw [heq]
    exact h.extend hm (by simp [Instr.targets]) (fun _ ↦ hdead) (by simp)
  · rw [heq]
    refine h.extend hm (fun y hy ↦ ?_) (by simp) (by simp)
    rwa [List.mem_singleton.mp hy]

/-- A body that starts in one of the new blocks leaves the others empty. -/
theorem Fills.not_endsIn {pending : List Nat} {i : Instr} (h : Fills fr block pending fr₁)
    (htarget : target ∈ pending) (hbody : Grows fr₁ n fr' m) (hne : target ≠ n) :
    ¬fr'.function.EndsIn target i := by
  obtain ⟨-, hlt, hcode⟩ := h.isPending target htarget
  exact not_endsIn_of_nil ((hbody.code_of_ne target hlt hne).trans hcode)

/-- The body of a loop leaves the block of its condition as it is, which ends in a branch. -/
theorem Grows.not_endsIn_turn {t : Tape} (hlt : n < fr.count)
    (h : Grows ((fr.withTape n t).turn n c) (n + 1) fr' m) :
    ¬fr'.function.EndsIn n .unreachable := by
  have hcount : n < (fr.withTape n t).count := by rwa [count_withTape]
  rw [Function.EndsIn, ← code, h.code_of_ne n (by simpa [turn] using hlt) (by omega), turn,
    code_extend hcount, List.getLast?_concat]
  exact fun heq ↦ absurd heq (by simp)

section

variable {flow : Flow}

/-- An expression at the end of an open block. -/
theorem Guarded.value {t : Tape} (h : fr.Guarded ret) (hstands : fr.Stands block flow)
    (isOpen : fr.function.isTerminated block = false) (hextends : (fr.tape block).Extends t) :
    (fr.withTape block t).Guarded ret ∧ (fr.withTape block t).Stands block flow ∧
      Straight ((fr.withTape block t).code block) := by
  have hstraight := hstands.straight isOpen
  exact ⟨h.withTape hstands.lt hstraight hextends, hstands.withTape hstraight hextends⟩

/-- The body of a conditional goes on to the block behind it, which is empty. -/
theorem Guarded.closeFork (h : fr₁.Guarded ret) (hstands : fr.Stands block flow)
    (hstraight : Straight (fr.code block)) (hn : fr.count = n)
    (hbody : Grows (fr.fork block c) n fr₁ m) : (fr₁.close m (n + 1)).Guarded ret := by
  have hnew := (opens_fork hstands.lt c).fills hstands.lt hstraight
  exact h.close hbody.next_lt
    (hnew.not_endsIn (by simp [List.mem_range'_1, ← hn]) hbody (Nat.succ_ne_self n))

theorem Guarded.closeForkElse (h : fr₁.Guarded ret) (hstands : fr.Stands block flow)
    (hstraight : Straight (fr.code block)) (hn : fr.count = n)
    (hbody : Grows (fr.forkElse block c) n fr₁ m) : (fr₁.close m (n + 2)).Guarded ret := by
  have hnew := (opens_forkElse hstands.lt c).fills hstands.lt hstraight
  exact h.close hbody.next_lt
    (hnew.not_endsIn (by simp [List.mem_range'_1, ← hn]) hbody (by omega))

theorem Guarded.closeOtherwise {p : Nat} (h : fr₂.Guarded ret) (hstands : fr.Stands block flow)
    (hstraight : Straight (fr.code block)) (hn : fr.count = n)
    (hbody : Grows (fr.forkElse block c) n fr₁ m)
    (hotherwise : Grows (fr₁.close m (n + 2)) (n + 1) fr₂ p) :
    (fr₂.close p (n + 2)).Guarded ret := by
  have hnew := fills_forkElse hn hstands.lt hstraight fun _ _ ↦ hbody
  exact h.close hotherwise.next_lt
    (hnew.not_endsIn (by simp) hotherwise (Nat.succ_ne_self (n + 1)))

end

end Frame

/-! ## Bodies -/

namespace Lowering

variable {outer : Outer} {fr fr' : Frame} {block next : Nat} {flow : Flow} {ret : Ty}

theorem guarded_of_lowers {ss : List Stmt} (h : Lowers outer ss block fr next fr')
    (hstands : fr.Stands block flow) (hguarded : fr.Guarded ret) : fr'.Guarded ret := by
  induction h generalizing flow with
  | nil => exact hguarded
  | assign isOpen valueOk assigned _ ih =>
    obtain ⟨hvalue, hat, hplain⟩ := hguarded.value hstands isOpen ((expr_moves _ _).of_eq valueOk)
    exact ih (hat.of_assigns hplain assigned).1 (hvalue.of_assigns hat.lt assigned)
  | @ret _ _ _ _ v _ _ _ isOpen valueOk _ _ ih =>
    obtain ⟨hvalue, hat, hplain⟩ := hguarded.value hstands isOpen ((expr_moves _ _).of_eq valueOk)
    have hret := Frame.grows_extend (i := .ret (some v)) hat.lt hplain rfl
    exact ih (hat.of_grows hret rfl)
      (hvalue.extend hat.lt (by simp [Instr.targets]) (by simp) (by simp))
  | @ifThen _ _ _ _ _ _ c _ _ _ _ isOpen condOk bodyOk _ ihBody ihRest =>
    obtain ⟨hcond, hat, hplain⟩ :=
      hguarded.value hstands isOpen ((condition_moves _ _).of_eq condOk)
    have hstart := hat.fork (c := c) hplain Frame.count_withTape
    have hbody := grows_of_lowers bodyOk hstart.lt hstart.tidy
    have hclosed := (ihBody hstart.toStands (hcond.fork hat.lt)).closeFork hat hplain
      Frame.count_withTape hbody
    exact ihRest (hat.behindFork hplain Frame.count_withTape hbody).toStands hclosed
  | @ifElse _ _ _ _ _ _ _ _ c _ _ _ _ _ isOpen condOk bodyOk otherwiseOk _ ihBody ihOtherwise
      ihRest =>
    obtain ⟨hcond, hat, hplain⟩ :=
      hguarded.value hstands isOpen ((condition_moves _ _).of_eq condOk)
    have hstart := hat.forkElse (c := c) hplain Frame.count_withTape
    have hbody := grows_of_lowers bodyOk hstart.lt hstart.tidy
    have hclosed := (ihBody hstart.toStands (hcond.forkElse hat.lt)).closeForkElse hat hplain
      Frame.count_withTape hbody
    have hstart' := hat.otherwise hplain Frame.count_withTape hbody
    have hotherwise := grows_of_lowers otherwiseOk hstart'.lt hstart'.tidy
    have hclosed' := (ihOtherwise hstart'.toStands hclosed).closeOtherwise hat hplain
      Frame.count_withTape hbody hotherwise
    exact ihRest (hat.behindForkElse hplain Frame.count_withTape hbody hotherwise).toStands hclosed'
  | @loop _ _ _ _ _ _ c _ _ _ _ isOpen condOk bodyOk _ ihBody ihRest =>
    have hextends := (condition_moves _ _).of_eq condOk
    have hstraight := hstands.straight isOpen
    have hstart := hstands.turn (c := c) hstraight hextends
    have hbody := grows_of_lowers bodyOk hstart.lt hstart.tidy
    have hturn := (hguarded.enterLoop hstands.lt).turn (c := c) hstands.lt hextends
    exact ihRest (hstands.behindLoop hstraight hextends hbody).toStands
      ((ihBody hstart.toStands hturn).close hbody.next_lt
        (hbody.not_endsIn_turn (by simp [Frame.enterLoop]; omega)))
  | call isOpen callOk _ ih =>
    obtain ⟨hcall, hat, -⟩ := hguarded.value hstands isOpen ((call_moves _ _ _).of_eq callOk)
    exact ih hat hcall
  | eval _ isOpen valueOk _ ih =>
    obtain ⟨hvalue, hat, -⟩ := hguarded.value hstands isOpen ((expr_moves _ _).of_eq valueOk)
    exact ih hat hvalue

theorem guarded_of_binds {ps : List (String × Value)} (h : Binds outer block ps fr fr')
    (hstands : fr.Stands block flow) (hstraight : Straight (fr.code block))
    (hguarded : fr.Guarded ret) : fr'.Guarded ret := by
  induction h with
  | nil => exact hguarded
  | cons assigned _ ih =>
    obtain ⟨hassigned, hplain⟩ := hstands.of_assigns hstraight assigned
    exact ih hassigned hplain (hguarded.of_assigns hstands.lt assigned)

theorem guarded_of_finishes {head : Prototype} {last : Nat} (h : Finishes head last fr fr')
    (hlast : last < fr.count) (hguarded : fr.Guarded head.ret) : fr'.Guarded head.ret := by
  cases h with
  | ended => exact hguarded
  | dead _ isDead =>
    exact hguarded.extend hlast (by simp [Instr.targets]) (fun _ ↦ isDead) (by simp)
  | void _ _ hvoid => exact hguarded.extend hlast (by simp [Instr.targets]) (by simp) fun _ ↦ hvoid

theorem guarded_of_lowersBody {head : Prototype} {ss : List Stmt} {bound : Frame} {last : Nat}
    {lowered finished : Frame} (h : LowersBody outer head ss fr bound last lowered finished)
    (hblocks : fr.function.blocks = []) : finished.Guarded head.ret := by
  have hcount : fr.count = 0 := List.length_eq_zero_iff.mpr hblocks
  have hempty : ∀ x, (fr.enter head).code x = [] := Frame.code_enter_of_nil head hblocks
  have hentry : (fr.enter head).Stands fr.count .live := by
    rw [hcount]
    exact .entry (by simp) hempty
  have hplain : Straight ((fr.enter head).code fr.count) := by
    rw [hempty]
    exact straight_nil
  have hbound := hentry.of_binds hplain h.binds
  have hguarded : bound.Guarded head.ret :=
    guarded_of_binds h.binds hentry hplain (Frame.guarded_of_nil hempty)
  have hlowered := guarded_of_lowers h.lowers hbound hguarded
  exact guarded_of_finishes h.finishes (grows_of_lowers h.lowers hbound.lt hbound.tidy).next_lt
    hlowered

/-- In a function that was lowered without error, in whatever context, nothing leads to a block that
ends as unreachable. A path from the entry goes on forever or ends in a return, which has a value
unless the function has no result. -/
theorem returns_of_define {c : Context} {head : Prototype} {ss : List Stmt}
    (h : (decl (.function head ss) c).1 = .ok ()) :
    ∃ f, (decl (.function head ss) c).2.function? head.ident = some f ∧
      (∀ b, f.EndsIn b .unreachable → b ≠ 0 ∧ b ∉ f.targets) ∧
      (∀ b, Relation.ReflTransGen f.Leads 0 b → ¬f.EndsIn b .unreachable) ∧
      ∀ path, f.Path path → (∀ n, (path n).isSome) ∨
        ∃ n b value, path n = some b ∧ path (n + 1) = none ∧ f.EndsIn b (.ret value) ∧
          (head.ret ≠ .void → value.isSome) := by
  rw [decl] at h ⊢
  rcases hdefine : define head ss c with ⟨result, c'⟩
  rw [hdefine] at h
  obtain rfl : result = .ok () := h
  obtain ⟨id, c₁, f, bound, last, lowered, finished, hdeclares, hf, -, hblocks, hbody, hextends,
    rfl⟩ := exists_of_define hdefine
  have hformed := wellFormed_of_lowersBody hbody hblocks
  have hguarded := guarded_of_lowersBody hbody hblocks
  have havoided : ∀ b, Relation.ReflTransGen finished.function.Leads 0 b →
      ¬finished.function.EndsIn b .unreachable := by
    intro b hreaches hends
    obtain ⟨hne, hfree⟩ := hguarded.unreached b hends
    rcases hreaches.cases_tail with heq | ⟨a, -, hleads⟩
    · exact hne heq
    · exact hfree (Function.mem_targets_of_leads hleads)
  refine ⟨finished.function, hdeclares.function?_withFrame hf hextends.signature,
    hguarded.unreached, havoided, fun path hpath ↦ ?_⟩
  refine hpath.forever_or_ends.imp_right ?_
  rintro ⟨n, b, hb, hlast⟩
  have hreaches := hpath.reaches n hb
  rcases hformed.leads_or_endsIn (hformed.lt_of_reaches hreaches) with
    ⟨x, hleads⟩ | ⟨value, hends⟩ | hends
  · exact absurd hlast (hpath.goesOn n b x hb hleads)
  · refine ⟨n, b, value, hb, hlast, hends, fun hvoid ↦ ?_⟩
    cases value with
    | none => exact absurd (hguarded.valued b (List.mem_of_getLast? hends)) hvoid
    | some => rfl
  · exact absurd hends (havoided b hreaches)

/-- Both branches of the conditional leave the function, so that the block behind it is dead; in it
a loop is lowered. -/
theorem returns_behind_dead_block :
    let head : Prototype := ⟨.double, "f", [⟨.double, "x"⟩]⟩
    let ss : List Stmt := [.ifElse (.name "x") [.ret (.name "x")] [.ret (.number 1)],
      .loop (.name "x") [.assign "x" (.number 0)], .ret (.number 2)]
    ∃ f, (decl (.function head ss) .empty).2.function? "f" = some f ∧
      (∀ b, f.EndsIn b .unreachable → b ≠ 0 ∧ b ∉ f.targets) ∧
      (∀ b, Relation.ReflTransGen f.Leads 0 b → ¬f.EndsIn b .unreachable) ∧
      (∃ path, f.Path path) ∧
      ∀ path, f.Path path → (∀ n, (path n).isSome) ∨
        ∃ n b value, path n = some b ∧ path (n + 1) = none ∧ f.EndsIn b (.ret value) ∧
          (head.ret ≠ .void → value.isSome) := by
  intro head ss
  have hok : (decl (.function head ss) .empty).1 = .ok () := eq_ok_of_isOk (by decide +kernel)
  obtain ⟨f, hf, hunreached, havoided, hpaths⟩ := returns_of_define hok
  exact ⟨f, hf, hunreached, havoided, f.exists_path, hpaths⟩

end Lowering

end BlockCompiler
