import BlockCompiler.Proofs.ExprSimulation

/-!
# Code that runs statements

A machine that stands where statements were lowered goes the way that direct evaluation goes: it
gets to the block behind the statements if control falls off them, it returns if they do, and it
makes the same calls on the way. As long as a loop goes on, so does the machine.

## The function that is run

The machine runs the finished function, and statements are lowered when only a part of it is there.
The two are tied by inclusion only: the code of every block is a prefix of what it will be, and a
local keeps its slot (`Frame.Within`). What is executed is decided by the flow. A block that is left
is live, so it was closed by a jump; the instruction `unreachable` closes dead blocks, and no
machine gets there.
-/

namespace BlockCompiler

/-! ## Functions that grow -/

namespace Frame

variable {outer : Outer} {fr fr₁ fr₂ fr' : Frame} {block target next : Nat}

/-- The locals are no globals, and each has a slot of its own. -/
def Allots (outer : Outer) (fr : Frame) : Prop :=
  ∀ ident b, fr.locals ident = some b → outer.globals ident = none ∧
    ∃ index, b.value = .slot index b.ty ∧ fr.function.slots[index]? = some ⟨ident, b.ty⟩

theorem allots_of_empty (h : fr.locals = fun _ ↦ none) : fr.Allots outer := by
  intro ident b hb
  rw [h] at hb
  cases hb

/-- A later frame of the same body: nothing is taken away, and locals keep their slots. -/
structure Continues (outer : Outer) (fr fr' : Frame) : Prop extends fr.Extends fr' where
  locals : ∀ ident b, fr.locals ident = some b → fr'.locals ident = some b
  allots : fr.Allots outer → fr'.Allots outer

namespace Continues

theorem trans (h₁ : fr.Continues outer fr₁) (h₂ : fr₁.Continues outer fr₂) :
    fr.Continues outer fr₂ :=
  ⟨h₁.toExtends.trans h₂.toExtends, fun ident b hb ↦ h₂.locals ident b (h₁.locals ident b hb),
    fun h ↦ h₂.allots (h₁.allots h)⟩

/-- No local is set up. -/
theorem of_extends (outer : Outer) (h : fr.Extends fr') (hlocals : fr'.locals = fr.locals) :
    fr.Continues outer fr' := by
  refine ⟨h, fun ident b hb ↦ hlocals ▸ hb, fun hallots ident b hb ↦ ?_⟩
  rw [hlocals] at hb
  obtain ⟨hglobal, index, hvalue, hslot⟩ := hallots ident b hb
  exact ⟨hglobal, index, hvalue, getElem?_of_prefix h.slots hslot⟩

theorem refl (outer : Outer) (fr : Frame) : fr.Continues outer fr :=
  of_extends outer (.refl fr) rfl

theorem close (outer : Outer) : fr.Continues outer (fr.close block target) := by
  refine of_extends outer .close ?_
  unfold Frame.close
  split
  · rfl
  · split <;> rfl

theorem fork (outer : Outer) {c : Value} : fr.Continues outer (fr.fork block c) :=
  of_extends outer (Extends.child.trans (Extends.child.trans .extend)) rfl

theorem forkElse (outer : Outer) {c : Value} : fr.Continues outer (fr.forkElse block c) :=
  of_extends outer (Extends.child.trans (Extends.child.trans (Extends.child.trans .extend))) rfl

theorem enterLoop (outer : Outer) : fr.Continues outer (fr.enterLoop block) :=
  of_extends outer (Extends.child.trans (Extends.child.trans (Extends.child.trans .extend))) rfl

theorem withTape (outer : Outer) {t : Tape} (h : (fr.tape block).Extends t) :
    fr.Continues outer (fr.withTape block t) :=
  of_extends outer (.withTape h) rfl

theorem of_assigns {ident : String} {v : Value}
    (h : Lowering.Assigns outer block ident v fr fr') : fr.Continues outer fr' := by
  cases h with
  | known => exact of_extends outer .extend rfl
  | first unbound free =>
    refine ⟨Extends.declare.trans .extend, fun x b hb ↦ ?_, fun hallots x b hb ↦ ?_⟩
    · have hx : x ≠ ident := by
        rintro rfl
        exact absurd hb (by simp [unbound])
      simpa [Frame.declare, Bindings.bind, hx] using hb
    · by_cases hx : x = ident
      · subst hx
        obtain rfl : _ = b := Option.some.inj ((if_pos rfl).symm.trans hb)
        exact ⟨free, _, rfl, List.getElem?_concat_length⟩
      · have hb : fr.locals x = some b := by
          simpa [Frame.declare, Bindings.bind, hx] using hb
        obtain ⟨hglobal, index, hvalue, hslot⟩ := hallots x b hb
        exact ⟨hglobal, index, hvalue, getElem?_of_prefix (List.prefix_append _ _) hslot⟩

theorem of_binds {ps : List (String × Value)} (h : Lowering.Binds outer block ps fr fr') :
    fr.Continues outer fr' := by
  induction h with
  | nil => exact refl outer _
  | cons assigned _ ih => exact (of_assigns assigned).trans ih

theorem of_finishes (outer : Outer) {head : Prototype} (h : Lowering.Finishes head block fr fr') :
    fr.Continues outer fr' := by
  cases h with
  | ended => exact refl outer fr
  | dead | void => exact of_extends outer .extend rfl

theorem of_lowers {ss : List Stmt} (h : Lowering.Lowers outer ss block fr next fr') :
    fr.Continues outer fr' := by
  induction h with
  | nil => exact refl outer _
  | assign _ valueOk assigned _ ih =>
    exact (withTape outer ((Lowering.expr_moves _ _).of_eq valueOk)).trans
      ((of_assigns assigned).trans ih)
  | ret _ valueOk _ _ ih =>
    exact (withTape outer ((Lowering.expr_moves _ _).of_eq valueOk)).trans
      ((of_extends outer .extend rfl).trans ih)
  | ifThen _ condOk _ _ ihBody ihRest =>
    exact (withTape outer ((Lowering.condition_moves _ _).of_eq condOk)).trans
      ((fork outer).trans (ihBody.trans ((close outer).trans ihRest)))
  | ifElse _ condOk _ _ _ ihBody ihOtherwise ihRest =>
    refine (withTape outer ((Lowering.condition_moves _ _).of_eq condOk)).trans
      ((forkElse outer).trans (ihBody.trans ?_))
    exact (close outer).trans (ihOtherwise.trans ((close outer).trans ihRest))
  | loop _ condOk _ _ ihBody ihRest =>
    refine (enterLoop outer).trans
      ((withTape outer ((Lowering.condition_moves _ _).of_eq condOk)).trans ?_)
    exact (of_extends outer .extend rfl).trans (ihBody.trans ((close outer).trans ihRest))
  | call _ callOk _ ih => exact (withTape outer ((Lowering.call_moves _ _ _).of_eq callOk)).trans ih
  | eval _ _ valueOk _ ih =>
    exact (withTape outer ((Lowering.expr_moves _ _).of_eq valueOk)).trans ih

end Continues

/-- What is lowered so far is part of what the machine runs. -/
structure Within (m : Machine) (names : Bindings Binding) (fr : Frame) : Prop where
  code : ∀ b, fr.code b <+: m.function.code b
  texts : fr.symbols.texts <+: m.texts
  locals : ∀ ident b, fr.locals ident = some b → names ident = some b

namespace Within

variable {m : Machine} {names : Bindings Binding}

theorem of_continues (h : fr'.Within m names) (hcontinues : fr.Continues outer fr') :
    fr.Within m names where
  code b := (hcontinues.code b).trans (h.code b)
  texts := hcontinues.symbols.texts.trans h.texts
  locals ident b hb := h.locals ident b (hcontinues.locals ident b hb)

theorem env (h : fr.Within m names) : (fr.env outer).Within outer names :=
  ⟨rfl, rfl, h.locals⟩

theorem contains {t : Tape} (h : (fr.withTape block t).Within m names) (hblock : block < fr.count) :
    m.Contains block t := by
  refine ⟨?_, h.texts⟩
  rw [← code_withTape (t := t) hblock]
  exact h.code block

/-- The instruction at the end of a block is executed when the machine gets there. -/
theorem prefix_extend {i : Instr} (h : (fr.extend block [i]).Within m names)
    (hblock : block < fr.count) : fr.code block ++ [i] <+: m.function.code block := by
  rw [← code_extend hblock]
  exact h.code block

end Within

end Frame

/-! ## Endings that a machine comes to -/

namespace Machine

variable {m : Machine} {k : Nat} {s s₁ : State} {P Q : Bindings Datum → History → State → Prop}
  {e : Ending}

/-- The machine comes to the same end. Where control goes on it gets to a state of which `P` holds,
and if the rounds of a loop do not suffice, it executes at least as many instructions. -/
def Ends (m : Machine) (rounds : Nat) (P : Bindings Datum → History → State → Prop) (s : State) :
    Ending → Prop
  | .done locals history => ∃ s', m.Reaches s s' ∧ P locals history s'
  | .returned d history => ∃ s', m.Reaches s s' ∧ m.step s' = .returned (some d) history
  | .fault (.unset _) => True
  | .fault .mismatch => False
  | .unfinished => m.Runs rounds s

theorem Ends.of_reaches (h : m.Reaches s s₁) (he : m.Ends k P s₁ e) : m.Ends k P s e := by
  rcases e with ⟨locals, history⟩ | ⟨d, history⟩ | (ident | _) | _
  · obtain ⟨s', hreaches, hP⟩ := he
    exact ⟨s', h.trans hreaches, hP⟩
  · obtain ⟨s', hreaches, hstep⟩ := he
    exact ⟨s', h.trans hreaches, hstep⟩
  · trivial
  · exact he
  · exact .of_reaches h he

/-- A step that is taken on the way counts. -/
theorem Ends.of_step (h : m.step s = .running s₁) (he : m.Ends k P s₁ e) :
    m.Ends (k + 1) P s e := by
  rcases e with ⟨locals, history⟩ | ⟨d, history⟩ | (ident | _) | _
  · obtain ⟨s', hreaches, hP⟩ := he
    exact ⟨s', (Reaches.of_step h).trans hreaches, hP⟩
  · obtain ⟨s', hreaches, hstep⟩ := he
    exact ⟨s', (Reaches.of_step h).trans hreaches, hstep⟩
  · trivial
  · exact he
  · exact .step h he

theorem Ends.le {k' : Nat} (he : m.Ends k' P s e) (hle : k ≤ k') : m.Ends k P s e := by
  rcases e with ⟨locals, history⟩ | ⟨d, history⟩ | (ident | _) | _
  · exact he
  · exact he
  · trivial
  · exact he
  · exact Runs.le he hle

theorem Ends.andThen {cont : Bindings Datum → History → Ending} (he : m.Ends k P s e)
    (hcont : ∀ locals history s', P locals history s' → m.Ends k Q s' (cont locals history)) :
    m.Ends k Q s (e.andThen cont) := by
  rcases e with ⟨locals, history⟩ | ⟨d, history⟩ | (ident | _) | _
  · obtain ⟨s', hreaches, hP⟩ := he
    exact .of_reaches hreaches (hcont locals history s' hP)
  · exact he
  · trivial
  · exact he
  · exact he

/-- Where control goes on, the machine goes on as well. -/
theorem Ends.goOn (he : m.Ends k P s e)
    (hP : ∀ locals history s', P locals history s' →
      ∃ s'', m.Reaches s' s'' ∧ Q locals history s'') :
    m.Ends k Q s e := by
  rcases e with ⟨locals, history⟩ | ⟨d, history⟩ | (ident | _) | _
  · obtain ⟨s', hreaches, h⟩ := he
    obtain ⟨s'', hreaches', hQ⟩ := hP locals history s' h
    exact ⟨s'', hreaches.trans hreaches', hQ⟩
  · exact he
  · trivial
  · exact he
  · exact he

theorem Ends.after {α : Type} {R : α → History → Prop} {ev : Evaluation α} {history : History}
    {cont : α → History → Ending} (h : Follows R (ev history))
    (hcont : ∀ a history', R a history' → m.Ends k P s (cont a history')) :
    m.Ends k P s (.after ev history cont) := by
  unfold Ending.after
  generalize ev history = r at h ⊢
  rcases r with (ident | _) | ⟨a, history'⟩
  · trivial
  · exact h
  · exact hcont a history' h

/-- A loop. `P` holds where its condition is evaluated, `B` at the start of its body and `Q` behind
the loop. Each round takes a step at least, that of the branch. -/
theorem ends_iterate {rounds : Nat} {test : Bindings Datum → Evaluation Bool}
    {body : Bindings Datum → History → Ending} {B : Bindings Datum → History → State → Prop}
    (htest : ∀ locals history s, P locals history s →
      Follows (fun holds history' ↦ ∃ s₁ s₂, m.Reaches s s₁ ∧ m.step s₁ = .running s₂ ∧
        if holds then B locals history' s₂ else Q locals history' s₂) (test locals history))
    (hbody : ∀ locals history s, B locals history s → m.Ends rounds P s (body locals history)) :
    ∀ k ≤ rounds, ∀ locals history s, P locals history s →
      m.Ends k Q s (iterate test body k locals history) := by
  intro k
  induction k with
  | zero => exact fun _ _ _ s _ ↦ Runs.zero s
  | succ k ih =>
    intro hle locals history s hs
    rw [iterate]
    refine .after (htest locals history s hs) fun holds history' ⟨s₁, s₂, hreaches, hstep, hs₂⟩ ↦
      .of_reaches hreaches (.of_step hstep ?_)
    cases holds with
    | false => exact ⟨s₂, .refl s₂, hs₂⟩
    | true =>
      exact ((hbody locals history' s₂ hs₂).le (by omega)).andThen
        fun locals history s' hs' ↦ ih (by omega) locals history s' hs'

/-! ## Single instructions -/

variable {names : Bindings Binding} {block target : Nat} {code : List Instr}
  {locals : Bindings Datum} {history : History} {v : Value}

theorem State.Holds.enter (hs : s.Holds names block code locals history) (target : Nat) :
    (s.enter target).Holds names target [] locals history :=
  ⟨rfl, rfl, hs.history, hs.locals⟩

theorem step_branch {ifTrue ifFalse : Nat} {b : Bool}
    (hs : s.Holds names block code locals history)
    (hcode : code ++ [.branch v ifTrue ifFalse] <+: m.function.code block)
    (hv : m.word? s v = some (.bit b)) :
    m.step s = .running (s.enter (if b then ifTrue else ifFalse)) := by
  rw [step_eq hs hcode, execute, hv]
  rfl

theorem step_jump (hs : s.Holds names block code locals history)
    (hcode : code ++ [.jump target] <+: m.function.code block) :
    m.step s = .running (s.enter target) := by
  rw [step_eq hs hcode, execute]

theorem step_ret {d : Datum} (hs : s.Holds names block code locals history)
    (hcode : code ++ [.ret (some v)] <+: m.function.code block)
    (hv : m.word? s v = some (.datum d)) : m.step s = .returned (some d) history := by
  rw [step_eq hs hcode, execute, hv, ← hs.history]
  rfl

/-- A store changes the local that the slot belongs to, and no other. -/
theorem reaches_store {w : World} {outer : Outer} {ident : String} {index : Nat} {d : Datum}
    (hm : m.Linked w outer names) (hname : names ident = some ⟨.slot index d.ty, d.ty⟩)
    (hs : s.Holds names block code locals history)
    (hcode : code ++ [.store v (.slot index d.ty)] <+: m.function.code block)
    (hv : m.word? s v = some (.datum d)) :
    ∃ s', m.Reaches s s' ∧ s'.Holds names block (code ++ [.store v (.slot index d.ty)])
      (locals.bind ident d) history := by
  have hlength : ((s.push none).write index d).results.length =
      (code ++ [Instr.store v (.slot index d.ty)]).length := by
    simp [State.push, State.write, hs.length]
  refine ⟨(s.push none).write index d, .of_step ?_, hs.block, hlength, hs.history,
    fun x d' hx ↦ ?_⟩
  · rw [step_eq hs hcode, execute, hv]
    rfl
  · by_cases hident : x = ident
    · subst hident
      obtain rfl : d = d' := Option.some.inj ((if_pos rfl).symm.trans hx)
      exact ⟨index, hname, if_pos rfl⟩
    · -- Another local has another slot.
      obtain ⟨index', hname', hvalue⟩ := hs.locals x d' ((if_neg hident).symm.trans hx)
      have hne : index' ≠ index := by
        rintro rfl
        obtain ⟨-, _, ⟨⟩, hslot⟩ := hm.locals ident _ hname
        obtain ⟨-, _, ⟨⟩, hslot'⟩ := hm.locals x _ hname'
        exact hident (Slot.mk.inj (Option.some.inj (hslot'.symm.trans hslot))).1
      exact ⟨index', hname', (if_neg hne).trans hvalue⟩

theorem reaches_assigns {w : World} {outer : Outer} {ident : String} {d : Datum} {fr fr' : Frame}
    (hm : m.Linked w outer names) (h : Lowering.Assigns outer block ident v fr fr')
    (hblock : block < fr.count) (hwithin : fr'.Within m names)
    (hs : s.Holds names block (fr.code block) locals history)
    (hv : m.word? s v = some (.datum d)) (hfits : v.Fits d.ty) :
    ∃ s', m.Reaches s s' ∧ s'.Holds names block (fr'.code block) (locals.bind ident d) history := by
  cases h with
  | @known b bound pointer sameTy =>
    have hname := hwithin.locals ident b bound
    obtain ⟨-, index, hvalue, -⟩ := hm.locals ident b hname
    obtain ⟨value, ty⟩ := b
    obtain rfl : ty = d.ty := sameTy.trans hfits.ty_eq
    obtain rfl : value = .slot index d.ty := hvalue
    rw [Frame.code_extend hblock]
    exact reaches_store hm hname hs (hwithin.prefix_extend hblock) hv
  | first =>
    have hname := hwithin.locals ident _ (if_pos rfl)
    have hcode := hwithin.prefix_extend (by simpa using hblock)
    rw [Frame.code_extend (by simpa using hblock)]
    rw [hfits.ty_eq] at hname hcode ⊢
    exact reaches_store hm hname hs hcode hv

/-- What an expression appended is the end of the code of its block. -/
theorem Advances.holds_withTape {fr : Frame} {t : Tape}
    (h : m.Advances names block t.code locals history s s₁) (hblock : block < fr.count) :
    s₁.Holds names block ((fr.withTape block t).code block) locals history := by
  rw [Frame.code_withTape hblock]
  exact h.holds

/-- A live block is closed by a jump. -/
theorem reaches_close {fr : Frame} (hstands : fr.Stands block .live)
    (hwithin : (fr.close block target).Within m names)
    (hs : s.Holds names block (fr.code block) locals history) :
    ∃ s', m.Reaches s s' ∧ s'.Holds names target [] locals history := by
  obtain ⟨hopen, hlive⟩ := Frame.flow_eq_live_iff.mp hstands.flow
  rcases Frame.close_eq fr block target with ⟨hterm, -⟩ | ⟨-, i, ⟨-, hdead⟩ | ⟨rfl, -⟩, heq⟩
  · exact absurd hterm (by simp [hopen])
  · exact absurd hdead (by simp [hlive])
  · rw [heq] at hwithin
    exact ⟨s.enter target, .of_step (step_jump hs (hwithin.prefix_extend hstands.lt)),
      hs.enter target⟩

end Machine

/-! ## Statements -/

namespace Lowering

variable {m : Machine} {w : World} {outer : Outer} {names : Bindings Binding} {rounds : Nat}

/-- Where control goes on behind statements: in a live block, with the code that is there so far. -/
def Behind (names : Bindings Binding) (next : Nat) (fr : Frame) (locals : Bindings Datum)
    (history : History) (s : Machine.State) : Prop :=
  fr.Stands next .live ∧ s.Holds names next (fr.code next) locals history

theorem Behind.start {names : Bindings Binding} {fr : Frame} {n : Nat} {locals : Bindings Datum}
    {history : History} {s : Machine.State} (h : fr.Starts n .live)
    (hs : s.Holds names n [] locals history) : Behind names n fr locals history s :=
  ⟨h.toStands, h.empty ▸ hs⟩

/-- The machine runs the statements that were lowered from where it stands. -/
def Simulates (m : Machine) (w : World) (names : Bindings Binding) (rounds : Nat) (ss : List Stmt)
    (block : Nat) (fr : Frame) (next : Nat) (fr' : Frame) : Prop :=
  ∀ {locals history s}, Behind names block fr locals history s → fr'.Within m names →
    m.Ends rounds (Behind names next fr') s (w.runAll rounds ss locals history)

section

variable {fr fr₁ fr₂ fr' : Frame} {block bodyEnd otherwiseEnd next : Nat} {c v : Value} {t : Tape}
  {cond value : Expr} {body otherwise rest : List Stmt} (hm : m.Linked w outer names)

/-- An expression whose value is dropped, or a call whose answer is. -/
theorem simulates_drop {α : Type} {ev : Bindings Datum → Evaluation α} {stmt : Stmt}
    (hrun : ∀ locals history, w.run rounds stmt locals history =
      .after (ev locals) history fun _ history ↦ .done locals history)
    (isOpen : fr.function.isTerminated block = false) (hextends : (fr.tape block).Extends t)
    (hev : ∀ {locals history s}, (fr.env outer).Within outer names → m.Contains block t →
      s.Holds names block (fr.code block) locals history →
      Follows (fun _ history' ↦ ∃ s', m.Advances names block t.code locals history' s s')
        (ev locals history))
    (restOk : Lowers outer rest block (fr.withTape block t) next fr')
    (ih : Simulates m w names rounds rest block (fr.withTape block t) next fr') :
    Simulates m w names rounds (stmt :: rest) block fr next fr' := by
  rintro locals history s ⟨hstands, hs⟩ hwithin
  have hvalue := (hstands.withTape (hstands.straight isOpen) hextends).1
  have hwithin₀ := hwithin.of_continues (.of_lowers restOk)
  rw [World.runAll, hrun]
  have hfollows := hev hwithin₀.env (hwithin₀.contains hstands.lt) hs
  refine .andThen (.after hfollows ?_) fun locals history s' hs' ↦ ih hs' hwithin
  rintro _ history' ⟨s₁, hadvances⟩
  exact ⟨s₁, hadvances.reaches, hvalue, hadvances.holds_withTape hstands.lt⟩

/-- A body that starts in a new block. Where control goes on at its end, the machine comes to the
block to which the body is closed. -/
theorem ends_closed (outer : Outer) {target : Nat} {locals : Bindings Datum} {history : History}
    {s : Machine.State} {Q : Bindings Datum → History → Machine.State → Prop}
    (hstart : fr.Starts block .live) (ih : Simulates m w names rounds body block fr bodyEnd fr₁)
    (hwithin : (fr₁.close bodyEnd target).Within m names)
    (hs : s.Holds names block [] locals history)
    (hQ : ∀ locals history s, fr₁.Stands bodyEnd .live → s.Holds names target [] locals history →
      Q locals history s) : m.Ends rounds Q s (w.runAll rounds body locals history) := by
  refine (ih (.start hstart hs) (hwithin.of_continues (.close outer))).goOn ?_
  rintro locals history s' ⟨hend, hs'⟩
  obtain ⟨s'', hreaches, hs''⟩ := Machine.reaches_close hend hwithin hs'
  exact ⟨s'', hreaches, hQ locals history s'' hend hs''⟩

include hm

theorem simulates_assign {ident : String} (isOpen : fr.function.isTerminated block = false)
    (valueOk : expr (fr.env outer) value (fr.tape block) = (.ok v, t))
    (assigned : Assigns outer block ident v (fr.withTape block t) fr₁)
    (restOk : Lowers outer rest block fr₁ next fr')
    (ih : Simulates m w names rounds rest block fr₁ next fr') :
    Simulates m w names rounds (.assign ident value :: rest) block fr next fr' := by
  rintro locals history s ⟨hstands, hs⟩ hwithin
  obtain ⟨hvalue, hplain⟩ := hstands.withTape (hstands.straight isOpen)
    ((expr_moves _ _).of_eq valueOk)
  have hassigned := (hvalue.of_assigns hplain assigned).1
  have hwithin₁ := hwithin.of_continues (.of_lowers restOk)
  have hwithin₀ := hwithin₁.of_continues (.of_assigns assigned)
  rw [World.runAll, World.run]
  refine .andThen (.after (expr_follows hm hwithin₀.env value valueOk
    (hwithin₀.contains hstands.lt) hs) fun d history' hd ↦ ?_)
    fun locals history s' hs' ↦ ih hs' hwithin
  obtain ⟨⟨s₁, hadvances, hword⟩, hfits⟩ := hd
  obtain ⟨s₂, hreaches, hs₂⟩ := Machine.reaches_assigns hm assigned hvalue.lt hwithin₁
    (hadvances.holds_withTape hstands.lt) hword hfits
  exact ⟨s₂, hadvances.reaches.trans hreaches, hassigned, hs₂⟩

theorem simulates_ret (isOpen : fr.function.isTerminated block = false)
    (valueOk : expr (fr.env outer) value (fr.tape block) = (.ok v, t))
    (restOk : Lowers outer rest block
      ((fr.withTape block t).extend block [.ret (some v)]) next fr') :
    Simulates m w names rounds (.ret value :: rest) block fr next fr' := by
  rintro locals history s ⟨hstands, hs⟩ hwithin
  have hvalue := (hstands.withTape (hstands.straight isOpen) ((expr_moves _ _).of_eq valueOk)).1
  have hwithin₁ := hwithin.of_continues (.of_lowers restOk)
  have hwithin₀ := hwithin₁.of_continues (.of_extends outer .extend rfl)
  rw [World.runAll, World.run]
  refine .andThen (P := fun _ _ _ ↦ False) (.after (expr_follows hm hwithin₀.env value valueOk
    (hwithin₀.contains hstands.lt) hs) fun d history' hd ↦ ?_) fun _ _ _ h ↦ h.elim
  obtain ⟨⟨s₁, hadvances, hword⟩, -⟩ := hd
  exact ⟨s₁, hadvances.reaches, Machine.step_ret (hadvances.holds_withTape hstands.lt)
    (hwithin₁.prefix_extend hvalue.lt) hword⟩

/-- The machine evaluates a condition and takes one of two ways. -/
theorem follows_branch {ifTrue ifFalse : Nat} {locals : Bindings Datum} {history : History}
    {s : Machine.State} (condOk : condition (fr.env outer) cond (fr.tape block) = (.ok c, t))
    (hblock : block < fr.count) (hwithin : (fr.withTape block t).Within m names)
    (hcode : (fr.withTape block t).code block ++ [.branch c ifTrue ifFalse] <+:
      m.function.code block)
    (hs : s.Holds names block (fr.code block) locals history) :
    Follows (fun holds history' ↦ ∃ s₁ s₂, m.Reaches s s₁ ∧ m.step s₁ = .running s₂ ∧
        s₂.Holds names (if holds then ifTrue else ifFalse) [] locals history')
      (w.holds locals cond history) := by
  refine (condition_follows hm hwithin.env condOk (hwithin.contains hblock) hs).mono
    fun holds history' ⟨s₁, hadvances, hword⟩ ↦ ?_
  have hs₁ := hadvances.holds_withTape hblock
  exact ⟨s₁, _, hadvances.reaches, Machine.step_branch hs₁ hcode hword, hs₁.enter _⟩

theorem simulates_ifThen (isOpen : fr.function.isTerminated block = false)
    (condOk : condition (fr.env outer) cond (fr.tape block) = (.ok c, t))
    (bodyOk : Lowers outer body fr.count ((fr.withTape block t).fork block c) bodyEnd fr₁)
    (restOk : Lowers outer rest (fr.count + 1) (fr₁.close bodyEnd (fr.count + 1)) next fr')
    (ihBody : Simulates m w names rounds body fr.count ((fr.withTape block t).fork block c)
      bodyEnd fr₁)
    (ihRest : Simulates m w names rounds rest (fr.count + 1)
      (fr₁.close bodyEnd (fr.count + 1)) next fr') :
    Simulates m w names rounds (.ifThen cond body :: rest) block fr next fr' := by
  rintro locals history s ⟨hstands, hs⟩ hwithin
  obtain ⟨hcond, hplain⟩ := hstands.withTape (hstands.straight isOpen)
    ((condition_moves _ _).of_eq condOk)
  have hbody := hcond.fork (c := c) hplain Frame.count_withTape
  have hgrows := grows_of_lowers bodyOk hbody.lt hbody.tidy
  have hafter := hcond.behindFork hplain Frame.count_withTape hgrows
  have hwithin₂ := hwithin.of_continues (.of_lowers restOk)
  have hwithin₁ := hwithin₂.of_continues (.close outer)
  have hwithin₀ := hwithin₁.of_continues (.of_lowers bodyOk)
  have hcode := hwithin₀.code block
  rw [Frame.code_fork hcond.lt, Frame.count_withTape] at hcode
  have hbranch := follows_branch hm condOk hstands.lt
    (hwithin₀.of_continues (.fork outer)) hcode hs
  rw [World.runAll, World.run]
  refine .andThen (P := fun locals history s ↦ s.Holds names (fr.count + 1) [] locals history)
    (.after hbranch fun holds history' hb ↦ ?_)
    fun locals history s' hs' ↦ ihRest (.start hafter hs') hwithin
  obtain ⟨s₁, s₂, hreaches, hstep, hs₂⟩ := hb
  refine .of_reaches (hreaches.trans (.of_step hstep)) ?_
  cases holds with
  | false => exact ⟨s₂, .refl s₂, hs₂⟩
  | true =>
    exact ends_closed outer hbody ihBody hwithin₂ hs₂ fun _ _ _ _ hs' ↦ hs'

theorem simulates_ifElse (isOpen : fr.function.isTerminated block = false)
    (condOk : condition (fr.env outer) cond (fr.tape block) = (.ok c, t))
    (bodyOk : Lowers outer body fr.count ((fr.withTape block t).forkElse block c) bodyEnd fr₁)
    (otherwiseOk : Lowers outer otherwise (fr.count + 1)
      (fr₁.close bodyEnd (fr.count + 2)) otherwiseEnd fr₂)
    (restOk : Lowers outer rest (fr.count + 2) (fr₂.close otherwiseEnd (fr.count + 2)) next fr')
    (ihBody : Simulates m w names rounds body fr.count ((fr.withTape block t).forkElse block c)
      bodyEnd fr₁)
    (ihOtherwise : Simulates m w names rounds otherwise (fr.count + 1)
      (fr₁.close bodyEnd (fr.count + 2)) otherwiseEnd fr₂)
    (ihRest : Simulates m w names rounds rest (fr.count + 2)
      (fr₂.close otherwiseEnd (fr.count + 2)) next fr') :
    Simulates m w names rounds (.ifElse cond body otherwise :: rest) block fr next fr' := by
  rintro locals history s ⟨hstands, hs⟩ hwithin
  obtain ⟨hcond, hplain⟩ := hstands.withTape (hstands.straight isOpen)
    ((condition_moves _ _).of_eq condOk)
  have hbody := hcond.forkElse (c := c) hplain Frame.count_withTape
  have hgrows := grows_of_lowers bodyOk hbody.lt hbody.tidy
  have hotherwise := hcond.otherwise hplain Frame.count_withTape hgrows
  have hgrows' := grows_of_lowers otherwiseOk hotherwise.lt hotherwise.tidy
  -- Only the end of a branch that is live goes on to the block behind the conditional.
  have hafter : fr₁.flow bodyEnd = .live ∨ fr₂.flow otherwiseEnd = .live →
      (fr₂.close otherwiseEnd (fr.count + 2)).Starts (fr.count + 2) .live := by
    intro hlive
    have hstarts := hcond.behindForkElse hplain Frame.count_withTape hgrows hgrows'
    rwa [Flow.join, if_pos hlive] at hstarts
  have hwithin₄ := hwithin.of_continues (.of_lowers restOk)
  have hwithin₃ := hwithin₄.of_continues (.close outer)
  have hwithin₂ := hwithin₃.of_continues (.of_lowers otherwiseOk)
  have hwithin₁ := hwithin₂.of_continues (.close outer)
  have hwithin₀ := hwithin₁.of_continues (.of_lowers bodyOk)
  have hcode := hwithin₀.code block
  rw [Frame.code_forkElse hcond.lt, Frame.count_withTape] at hcode
  have hbranch := follows_branch hm condOk hstands.lt
    (hwithin₀.of_continues (.forkElse outer)) hcode hs
  rw [World.runAll, World.run]
  refine .andThen (P := fun locals history s ↦
      (fr₂.close otherwiseEnd (fr.count + 2)).Starts (fr.count + 2) .live ∧
        s.Holds names (fr.count + 2) [] locals history)
    (.after hbranch fun holds history' hb ↦ ?_)
    fun locals history s' h ↦ ihRest (.start h.1 h.2) hwithin
  obtain ⟨s₁, s₂, hreaches, hstep, hs₂⟩ := hb
  refine .of_reaches (hreaches.trans (.of_step hstep)) ?_
  cases holds with
  | false =>
    exact ends_closed outer hotherwise ihOtherwise hwithin₄ hs₂
      fun _ _ _ hend hs' ↦ ⟨hafter (.inr hend.flow), hs'⟩
  | true =>
    exact ends_closed outer hbody ihBody hwithin₂ hs₂
      fun _ _ _ hend hs' ↦ ⟨hafter (.inl hend.flow), hs'⟩

theorem simulates_loop (isOpen : fr.function.isTerminated block = false)
    (condOk : condition (fr.env outer) cond ((fr.enterLoop block).tape fr.count) = (.ok c, t))
    (bodyOk : Lowers outer body (fr.count + 1)
      (((fr.enterLoop block).withTape fr.count t).turn fr.count c) bodyEnd fr₁)
    (restOk : Lowers outer rest (fr.count + 2) (fr₁.close bodyEnd fr.count) next fr')
    (ihBody : Simulates m w names rounds body (fr.count + 1)
      (((fr.enterLoop block).withTape fr.count t).turn fr.count c) bodyEnd fr₁)
    (ihRest : Simulates m w names rounds rest (fr.count + 2)
      (fr₁.close bodyEnd fr.count) next fr') :
    Simulates m w names rounds (.loop cond body :: rest) block fr next fr' := by
  rintro locals history s ⟨hstands, hs⟩ hwithin
  have hplain := hstands.straight isOpen
  have hextends := (condition_moves _ _).of_eq condOk
  have hopens := (Frame.opens_enterLoop hstands.lt).fills hstands.lt hplain
  have hbody := hstands.turn (c := c) hplain hextends
  have hafter := hstands.behindLoop hplain hextends (grows_of_lowers bodyOk hbody.lt hbody.tidy)
  obtain ⟨-, htest, htestCode⟩ := hopens.isPending fr.count (by simp [List.mem_range'_1])
  have hwithin₄ := hwithin.of_continues (.of_lowers restOk)
  have hwithin₃ := hwithin₄.of_continues (.close outer)
  have hwithin₂ := hwithin₃.of_continues (.of_lowers bodyOk)
  have hwithin₁ := hwithin₂.of_continues (.of_extends outer .extend rfl)
  have hwithin₀ := hwithin₁.of_continues (.withTape outer hextends)
  have hjump := hwithin₀.code block
  rw [Frame.code_enterLoop hstands.lt] at hjump
  have hbranch := hwithin₂.prefix_extend (by simpa using htest)
  rw [World.runAll, World.run]
  refine .andThen (P := fun locals history s ↦ s.Holds names (fr.count + 2) [] locals history)
    (.of_reaches (.of_step (Machine.step_jump hs hjump)) ?_)
    fun locals history s' hs' ↦ ihRest (.start hafter hs') hwithin
  -- A round of evaluation is a round of the machine: both start at the condition.
  refine Machine.ends_iterate (P := fun locals history s ↦ s.Holds names fr.count [] locals history)
    (B := fun locals history s ↦ s.Holds names (fr.count + 1) [] locals history)
    (fun locals history s hs ↦ ?_) (fun locals history s hs ↦ ?_) rounds (Nat.le_refl _) _ _ _
    (hs.enter fr.count)
  · refine (follows_branch hm condOk htest hwithin₁ hbranch (htestCode ▸ hs)).mono ?_
    rintro holds history' ⟨s₁, s₂, hreaches, hstep, hs₂⟩
    refine ⟨s₁, s₂, hreaches, hstep, ?_⟩
    cases holds with
    | false => exact hs₂
    | true => exact hs₂
  · exact ends_closed outer hbody ihBody hwithin₄ hs fun _ _ _ _ hs' ↦ hs'

/-- The machine runs statements that were lowered, in a function that was finished later, as direct
evaluation runs them. -/
theorem simulates_of_lowers {ss : List Stmt} (h : Lowers outer ss block fr next fr') :
    Simulates m w names rounds ss block fr next fr' := by
  induction h with
  | nil =>
    intro locals history s hs _
    rw [World.runAll]
    exact ⟨s, .refl s, hs⟩
  | assign isOpen valueOk assigned restOk ih =>
    exact simulates_assign hm isOpen valueOk assigned restOk ih
  | ret isOpen valueOk _ restOk _ => exact simulates_ret hm isOpen valueOk restOk
  | ifThen isOpen condOk bodyOk restOk ihBody ihRest =>
    exact simulates_ifThen hm isOpen condOk bodyOk restOk ihBody ihRest
  | ifElse isOpen condOk bodyOk otherwiseOk restOk ihBody ihOtherwise ihRest =>
    exact simulates_ifElse hm isOpen condOk bodyOk otherwiseOk restOk ihBody ihOtherwise ihRest
  | loop isOpen condOk bodyOk restOk ihBody ihRest =>
    exact simulates_loop hm isOpen condOk bodyOk restOk ihBody ihRest
  | call isOpen callOk restOk ih =>
    exact simulates_drop (fun _ _ ↦ by rw [World.run]) isOpen ((call_moves _ _ _).of_eq callOk)
      (fun henv ht hs ↦ call_follows hm henv callOk ht hs) restOk ih
  | eval notCall isOpen valueOk restOk ih =>
    refine simulates_drop (fun _ _ ↦ by rw [World.run]; exact notCall) isOpen
      ((expr_moves _ _).of_eq valueOk) (fun henv ht hs ↦ ?_) restOk ih
    refine (expr_follows hm henv _ valueOk ht hs).mono ?_
    rintro d history' ⟨⟨s', hadvances, -⟩, -⟩
    exact ⟨s', hadvances⟩

end

end Lowering

end BlockCompiler
