import BlockCompiler.Proofs.Declaration

/-!
# The moments of lowering a body

Lowering comes to a statement if all that stands in front of it is accepted, at whatever depth it
stands (`ComesTo`). Whether the statement itself is accepted does not matter, and what stands behind
it does not either: a moment is a place in a body with the frame that lowering has built so far. If
a body is refused, it is left at a moment (`moment_of_body_error`). A property that every single
step keeps holds at every moment (`Moment.keeps`).
-/

namespace BlockCompiler

namespace Lowering

/-- Lowering statements at the end of a block comes to other statements, of the same list or of the
bodies in it. The frames are those of the two places. -/
inductive ComesTo (outer : Outer) : List Stmt → Nat → Frame → List Stmt → Nat → Frame → Prop
  | here {ss : List Stmt} {block : Nat} {fr : Frame} : ComesTo outer ss block fr ss block fr
  | behind {s : Stmt} {rest ss : List Stmt} {block next there : Nat} {fr fr₁ fr' : Frame}
      (accepted : stmt outer s block fr = (.ok next, fr₁))
      (goesOn : ComesTo outer rest next fr₁ ss there fr') :
      ComesTo outer (s :: rest) block fr ss there fr'
  | ifThen {cond : Expr} {body rest ss : List Stmt} {block there : Nat} {c : Value} {t : Tape}
      {fr fr' : Frame} (isOpen : fr.function.isTerminated block = false)
      (condOk : condition (fr.env outer) cond (fr.tape block) = (.ok c, t))
      (inBody : ComesTo outer body fr.count ((fr.withTape block t).fork block c) ss there fr') :
      ComesTo outer (.ifThen cond body :: rest) block fr ss there fr'
  | ifElse {cond : Expr} {body otherwise rest ss : List Stmt} {block there : Nat} {c : Value}
      {t : Tape} {fr fr' : Frame} (isOpen : fr.function.isTerminated block = false)
      (condOk : condition (fr.env outer) cond (fr.tape block) = (.ok c, t))
      (inBody : ComesTo outer body fr.count ((fr.withTape block t).forkElse block c) ss there fr') :
      ComesTo outer (.ifElse cond body otherwise :: rest) block fr ss there fr'
  | otherwise {cond : Expr} {body otherwise rest ss : List Stmt} {block bodyEnd there : Nat}
      {c : Value} {t : Tape} {fr fr₁ fr' : Frame}
      (isOpen : fr.function.isTerminated block = false)
      (condOk : condition (fr.env outer) cond (fr.tape block) = (.ok c, t))
      (bodyOk : stmts outer body fr.count ((fr.withTape block t).forkElse block c) =
        (.ok bodyEnd, fr₁))
      (inOtherwise : ComesTo outer otherwise (fr.count + 1) (fr₁.close bodyEnd (fr.count + 2))
        ss there fr') :
      ComesTo outer (.ifElse cond body otherwise :: rest) block fr ss there fr'
  | loop {cond : Expr} {body rest ss : List Stmt} {block there : Nat} {c : Value} {t : Tape}
      {fr fr' : Frame} (isOpen : fr.function.isTerminated block = false)
      (condOk : condition (fr.env outer) cond ((fr.enterLoop block).tape fr.count) = (.ok c, t))
      (inBody : ComesTo outer body (fr.count + 1)
        (((fr.enterLoop block).withTape fr.count t).turn fr.count c) ss there fr') :
      ComesTo outer (.loop cond body :: rest) block fr ss there fr'

/-- The frames that lowering a body passes through: while the parameters are bound, in front of each
statement that lowering comes to, and behind it, where it was accepted or refused. -/
inductive Moment (outer : Outer) (head : Prototype) (ss : List Stmt) (fr : Frame) : Frame → Prop
  | params (k : Nat) : Moment outer head ss fr
      (bindParams outer fr.count (((fr.enter head).function.bindings head).take k)
        (fr.enter head)).2
  | front {rest : List Stmt} {block : Nat} {bound fr' : Frame}
      (paramsOk : bindParams outer fr.count ((fr.enter head).function.bindings head)
        (fr.enter head) = (.ok (), bound))
      (comes : ComesTo outer ss fr.count bound rest block fr') : Moment outer head ss fr fr'
  | behind {s : Stmt} {rest : List Stmt} {block : Nat} {bound fr' : Frame}
      (paramsOk : bindParams outer fr.count ((fr.enter head).function.bindings head)
        (fr.enter head) = (.ok (), bound))
      (comes : ComesTo outer ss fr.count bound (s :: rest) block fr') :
      Moment outer head ss fr (stmt outer s block fr').2

/-! ## The end of a body -/

section

variable {outer : Outer} {ss : List Stmt} {block : Nat} {fr fr' : Frame} {e : LoweringError}

/-- Statements that are accepted are come to the end of. -/
theorem comesTo_of_ok {last : Nat} (h : stmts outer ss block fr = (.ok last, fr')) :
    ComesTo outer ss block fr [] last fr' := by
  induction ss generalizing block fr with
  | nil =>
    obtain ⟨⟨⟩, rfl⟩ := Prod.mk.inj h
    exact .here
  | cons s rest ih =>
    rw [stmts] at h
    obtain ⟨next, fr₁, hs, hrest⟩ := bind_eq_ok_iff.mp h
    exact .behind hs (ih hrest)

/-- Statements are refused at one of them, to which lowering comes. -/
theorem comesTo_of_error (h : stmts outer ss block fr = (.error e, fr')) :
    ∃ s rest there fr₁, ComesTo outer ss block fr (s :: rest) there fr₁ ∧
      stmt outer s there fr₁ = (.error e, fr') := by
  induction ss generalizing block fr with
  | nil => exact absurd (Prod.mk.inj h).1 (by simp)
  | cons s rest ih =>
    rw [stmts] at h
    rcases bind_eq_error_iff.mp h with hs | ⟨next, fr₁, hs, hrest⟩
    · exact ⟨s, rest, block, fr, .here, hs⟩
    · obtain ⟨s', rest', there, fr₂, hcomes, hs'⟩ := ih hrest
      exact ⟨s', rest', there, fr₂, .behind hs hcomes, hs'⟩

theorem eq_of_finish_error {head : Prototype} (h : finish head block fr = (.error e, fr')) :
    fr' = fr := by
  rw [finish, bind_state_apply] at h
  split at h
  · exact absurd (Prod.mk.inj h).1 (by simp)
  · split at h
    · exact absurd (Prod.mk.inj h).1 (by simp)
    · rw [bind_require_apply] at h
      split at h
      · exact absurd (Prod.mk.inj h).1 (by simp)
      · exact (Prod.mk.inj h).2.symm

/-- What a refused body leaves behind is the frame of a moment. -/
theorem moment_of_body_error {head : Prototype} (h : body head ss outer fr = (.error e, fr')) :
    Moment outer head ss fr fr' := by
  rw [body_apply] at h
  rcases bind_eq_error_iff.mp h with hparams | ⟨_, bound, hparams, h⟩
  · have hleft : (bindParams outer fr.count (((fr.enter head).function.bindings head).take
        ((fr.enter head).function.bindings head).length) (fr.enter head)).2 = fr' := by
      rw [List.take_length, hparams]
    exact hleft ▸ .params _
  · rcases bind_eq_error_iff.mp h with hstmts | ⟨last, lowered, hstmts, h⟩
    · obtain ⟨s, rest, there, fr₁, hcomes, hs⟩ := comesTo_of_error hstmts
      have hmoment := Moment.behind hparams hcomes
      rwa [hs] at hmoment
    · rcases bind_eq_error_iff.mp h with hfinish | ⟨_, _, _, hclear⟩
      · obtain rfl := eq_of_finish_error hfinish
        exact .front hparams (comesTo_of_ok hstmts)
      · exact absurd (Prod.mk.inj hclear).1 (by simp)

end

/-! ## What holds at every moment -/

section

variable {outer : Outer} {K : Frame → Prop} {Datum Bit : Value → Prop}

namespace Invariant

variable {fr : Frame} {block : Nat} {c : Value}

theorem fork (h : Invariant outer K Datum Bit) (hc : Bit c) (hfr : K fr) : K (fr.fork block c) :=
  h.branch _ _ _ _ _ hc (h.child _ _ _ (h.child _ _ _ hfr))

theorem forkElse (h : Invariant outer K Datum Bit) (hc : Bit c) (hfr : K fr) :
    K (fr.forkElse block c) :=
  h.branch _ _ _ _ _ hc (h.child _ _ _ (h.child _ _ _ (h.child _ _ _ hfr)))

theorem enterLoop (h : Invariant outer K Datum Bit) (hfr : K fr) : K (fr.enterLoop block) :=
  h.jump _ _ _ (h.child _ _ _ (h.child _ _ _ (h.child _ _ _ hfr)))

theorem close (h : Invariant outer K Datum Bit) (target : Nat) (hfr : K fr) :
    K (fr.close block target) := by
  have hkeeps := h.close_keeps block target fr hfr
  rwa [close_apply] at hkeeps

theorem withTape_of_condition (h : Invariant outer K Datum Bit) {cond : Expr} {t : Tape}
    (hcond : Lowering.condition (fr.env outer) cond (fr.tape block) = (.ok c, t)) (hfr : K fr) :
    Bit c ∧ K (fr.withTape block t) :=
  (h.condition block cond).of_ok hfr (within_eq_ok_iff.mpr ⟨t, hcond, rfl⟩)

end Invariant

theorem ComesTo.keeps (h : Invariant outer K Datum Bit) {ss ss' : List Stmt} {block block' : Nat}
    {fr fr' : Frame} (hcomes : ComesTo outer ss block fr ss' block' fr') (hfr : K fr) : K fr' := by
  induction hcomes with
  | here => exact hfr
  | @behind s _ _ block _ _ _ _ _ accepted _ ih =>
    exact ih ((h.stmt_keeps s block).of_eq accepted hfr)
  | ifThen _ condOk _ ih =>
    obtain ⟨hc, hcond⟩ := h.withTape_of_condition condOk hfr
    exact ih (h.fork hc hcond)
  | ifElse _ condOk _ ih =>
    obtain ⟨hc, hcond⟩ := h.withTape_of_condition condOk hfr
    exact ih (h.forkElse hc hcond)
  | @otherwise _ body _ _ _ _ _ _ _ _ fr _ _ _ condOk bodyOk _ ih =>
    obtain ⟨hc, hcond⟩ := h.withTape_of_condition condOk hfr
    exact ih (h.close _ ((h.stmts_keeps body fr.count).of_eq bodyOk (h.forkElse hc hcond)))
  | loop _ condOk _ ih =>
    obtain ⟨hc, hcond⟩ := h.withTape_of_condition condOk (h.enterLoop hfr)
    exact ih (h.branch _ _ _ _ _ hc hcond)

/-- What holds when the parameters are bound, and is kept by every step, holds at every moment. -/
theorem Moment.keeps (h : Invariant outer K Datum Bit) {head : Prototype} {ss : List Stmt}
    {fr fr' : Frame} (hmoment : Moment outer head ss fr fr') (hfr : K (fr.enter head))
    (hparams : ∀ p ∈ (fr.enter head).function.bindings head, Datum p.2) : K fr' := by
  cases hmoment with
  | params k =>
    exact h.bindParams_keeps fr.count (fun p hp ↦ hparams p (List.mem_of_mem_take hp)) _ hfr
  | front paramsOk comes =>
    exact comes.keeps h ((h.bindParams_keeps fr.count hparams).of_eq paramsOk hfr)
  | @behind s _ block _ _ paramsOk comes =>
    exact h.stmt_keeps s block _
      (comes.keeps h ((h.bindParams_keeps fr.count hparams).of_eq paramsOk hfr))

end

/-! ## What is declared about the function -/

/-- No step of a body changes what is declared about its function. -/
theorem signature_stable (outer : Outer) (signature : Signature) :
    Stable outer fun fr ↦ fr.function.signature = signature where
  withTape _ _ _ h := h
  extend _ _ _ h := h
  child _ _ _ h := h
  declare _ _ _ _ _ h := h

section

variable {outer : Outer} {ss rest : List Stmt} {block there : Nat} {fr fr' : Frame}

theorem ComesTo.signature_eq (h : ComesTo outer ss block fr rest there fr') :
    fr'.function.signature = fr.function.signature :=
  h.keeps (signature_stable outer _).invariant rfl

theorem Moment.signature_eq {head : Prototype} (h : Moment outer head ss fr fr') :
    fr'.function.signature = fr.function.signature :=
  h.keeps (signature_stable outer _).invariant rfl fun _ _ ↦ trivial

theorem signature_of_bindParams {ps : List (String × Value)} {r : Except LoweringError Unit}
    (h : bindParams outer block ps fr = (r, fr')) :
    fr'.function.signature = fr.function.signature :=
  ((signature_stable outer _).invariant.bindParams_keeps block fun _ _ ↦ trivial).of_eq h rfl

end

end Lowering

end BlockCompiler
