import BlockCompiler.Proofs.Naming
import BlockCompiler.Proofs.Parsing
import BlockCompiler.Proofs.StmtSimulation
import Mathlib.Data.List.Forall2

/-!
# Compiling preserves meaning

A source text that compiles is a sequence of declarations, and the module holds the code of every
function that they define. If direct evaluation of a body returns, running the blocks of the
function from its entry returns the same result after the same calls. If evaluation runs forever, so
does the machine (`compile_preserves`).

Nothing is said of an evaluation that reads a local that was not set: there is no value to read.
-/

namespace BlockCompiler

/-! ## Bodies -/

/-- A machine that returns where control falls off a body returns what the body does. -/
theorem Machine.Ends.returns {m : Machine} {rounds : Nat} {e : Ending} {value : Option Datum}
    {history : History}
    (h : m.Ends rounds (fun _ history s ↦ m.step s = .returned none history) .start e)
    (he : e.result? = some (value, history)) : m.Returns value history := by
  rcases e with ⟨locals, calls⟩ | ⟨d, calls⟩ | cause | _
  · obtain ⟨s, hreaches, hstep⟩ := h
    obtain ⟨rfl, rfl⟩ := Prod.mk.inj (Option.some.inj he)
    exact .of_reaches hreaches hstep
  · obtain ⟨s, hreaches, hstep⟩ := h
    obtain ⟨rfl, rfl⟩ := Prod.mk.inj (Option.some.inj he)
    exact .of_reaches hreaches hstep
  · exact absurd he (by simp [Ending.result?])
  · exact absurd he (by simp [Ending.result?])

namespace Lowering

variable {m : Machine} {w : World} {outer : Outer} {names : Bindings Binding} {head : Prototype}
  {ss : List Stmt} {args : List Datum} {fr bound lowered finished : Frame} {last : Nat}

/-- The operand stands for the value wherever the machine is. -/
structure Passes (m : Machine) (p : String × Value) (q : String × Datum) : Prop where
  ident : p.1 = q.1
  word : ∀ s, m.word? s p.2 = some (.datum q.2)
  fits : p.2.Fits q.2.ty

/-- The values that are passed are stored in the slots of the parameters. -/
theorem reaches_binds {block : Nat} {fr' : Frame} {history : History}
    {ps : List (String × Value)} (hm : m.Linked w outer names)
    (h : Binds outer block ps fr fr') :
    ∀ {qs : List (String × Datum)} {locals : Bindings Datum} {s : Machine.State},
      List.Forall₂ (Passes m) ps qs → block < fr.count → Straight (fr.code block) →
      fr'.Within m names → s.Holds names block (fr.code block) locals history →
      ∃ s', m.Reaches s s' ∧ s'.Holds names block (fr'.code block)
        (qs.foldl (fun locals q ↦ locals.bind q.1 q.2) locals) history := by
  induction h with
  | nil =>
    rintro _ locals s ⟨⟩ _ _ _ hs
    exact ⟨s, .refl s, hs⟩
  | @cons ident value rest fr fr₁ fr' assigned restOk ih =>
    rintro _ locals s (_ | @⟨_, q, _, qs, hpasses, hrest⟩) hblock hstraight hwithin hs
    obtain ⟨rfl, hword, hfits⟩ := hpasses
    obtain ⟨hgrows, hplain⟩ := Frame.grows_of_assigns hblock hstraight assigned
    have hwithin₁ := hwithin.of_continues (.of_binds restOk)
    obtain ⟨s₁, hreaches₁, hs₁⟩ :=
      Machine.reaches_assigns hm assigned hblock hwithin₁ hs (hword s) hfits
    obtain ⟨s₂, hreaches₂, hs₂⟩ := ih hrest hgrows.next_lt hplain hwithin hs₁
    exact ⟨s₂, hreaches₁.trans hreaches₂, hs₂⟩

/-- Each parameter of the head is passed the argument at its place. -/
theorem passes_bindings {f : Function} (hargs : m.args = args)
    (hparams : f.params.map Param.ty = head.params.map Param.ty)
    (htypes : args.map Datum.ty = head.params.map Param.ty) :
    List.Forall₂ (Passes m) (f.bindings head) ((head.params.map Param.ident).zip args) := by
  have hlength : f.params.length = head.params.length := by simpa using congrArg List.length hparams
  have hlength' : args.length = head.params.length := by simpa using congrArg List.length htypes
  refine List.forall₂_iff_get.mpr ⟨?_, fun i hi hi' ↦ ?_⟩
  · simp [Function.bindings, Function.paramValues, hlength, hlength']
  · simp only [List.length_zip, List.length_map, hlength', Nat.min_self] at hi'
    have hty : (f.params[i]).ty = (args[i]).ty := by
      have h := congrArg (·[i]?) (hparams.trans htypes.symm)
      simpa [hlength, hlength', hi'] using h
    refine ⟨by simp [Function.bindings], fun s ↦ ?_, Datum.isStorable_ty _, ?_⟩
    · simp [Function.bindings, Function.paramValues, Machine.word?, hargs, hlength', hi']
    · simp [Function.bindings, Function.paramValues, Value.kind, hty]

/-- The machine that runs a finished function does what direct evaluation of its body does. -/
theorem ends_of_lowersBody (h : LowersBody outer head ss fr bound last lowered finished)
    (hblocks : fr.function.blocks = [])
    (hparams : fr.function.params.map Param.ty = head.params.map Param.ty)
    (htypes : args.map Datum.ty = head.params.map Param.ty)
    (hm : m.Linked w outer finished.locals) (hfunction : m.function = finished.function)
    (htexts : finished.symbols.texts <+: m.texts) (hargs : m.args = args) (rounds : Nat) :
    m.Ends rounds (fun _ history s ↦ m.step s = .returned none history) .start
      (w.runBody head ss args rounds) := by
  have hcount : fr.count = 0 := List.length_eq_zero_iff.mpr hblocks
  have hempty := Frame.code_enter_of_nil head hblocks
  obtain ⟨hbinds, hlowers, hfinishes⟩ := h
  rw [hcount] at hbinds hlowers
  have hstands : (fr.enter head).Stands 0 .live := .entry (by simp) hempty
  have hstraight : Straight ((fr.enter head).code 0) := by rw [hempty]; exact straight_nil
  have hfinished : finished.Within m finished.locals :=
    ⟨fun b ↦ prefix_of_eq (congrArg (Function.code · b) hfunction), htexts, fun _ _ hb ↦ hb⟩
  have hlowered : lowered.Within m finished.locals :=
    hfinished.of_continues (.of_finishes outer hfinishes)
  have hstart : Machine.State.Holds finished.locals 0 ((fr.enter head).code 0) (fun _ ↦ none) []
      .start :=
    ⟨rfl, by rw [hempty]; rfl, rfl, nofun⟩
  obtain ⟨s, hreaches, hs⟩ := reaches_binds hm hbinds
    (passes_bindings hargs ((Function.map_ty_nameParams _ _).trans hparams) htypes) hstands.lt
    hstraight (hlowered.of_continues (.of_lowers hlowers)) hstart
  refine .of_reaches hreaches ?_
  refine (simulates_of_lowers hm hlowers ⟨hstands.of_binds hstraight hbinds, hs⟩ hlowered).goOn
    fun locals history s' ⟨hend, hs'⟩ ↦ ⟨s', .refl s', ?_⟩
  obtain ⟨hopen, hlive⟩ := Frame.flow_eq_live_iff.mp hend.flow
  cases hfinishes with
  | ended terminated => exact absurd terminated (by simp [hopen])
  | dead _ isDead => exact absurd isDead (by simp [hlive])
  | void =>
    rw [Machine.step_eq hs' (hfinished.prefix_extend hend.lt), Machine.execute, hs'.history]

end Lowering

/-! ## Source texts that compile -/

/-- A source text that compiles is a sequence of declarations that are accepted, and all parameters
in it can be passed. -/
theorem accepts_of_compileTokens {c : Context} {ts : List Token}
    (h : (compileTokens c ts).outcome = .ok ()) :
    Accepts c (compileTokens c ts).seen (compileTokens c ts).context ∧
      ∀ d ∈ (compileTokens c ts).seen, ∀ head, d.head? = some head →
        ∀ p ∈ head.params, p.ty.isStorable = true := by
  fun_induction compileTokens c ts with
  | case1 => exact ⟨.nil, nofun⟩
  | case2 => exact absurd h (by simp)
  | case3 => exact absurd h (by simp)
  | case4 c ts d rest hlt hnext c₁ hdecl r ih =>
    obtain ⟨haccepts, hparams⟩ := ih h
    refine ⟨.cons hdecl haccepts, fun d' hd' head hhead ↦ ?_⟩
    rcases List.mem_cons.mp hd' with rfl | hd'
    · exact (Parse.of_nextDeclaration? hnext hhead).2.params
    · exact hparams d' hd' head hhead

/-! ## Constants in force -/

/-- The globals are bound to the constants. -/
def Context.Binds (c : Context) (constants : Bindings Float) : Prop :=
  ∀ ident, (c.scopes.get? .global ident).map Binding.value = (constants ident).map .number

namespace Lowering

variable {c c' : Context} {constants : Bindings Float}

theorem binds_of_declares {head : Prototype} {id : Nat} (h : Declares c head id c')
    (hc : c.Binds constants) : c'.Binds constants := by
  intro ident
  rw [h.scopes_eq]
  exact hc ident

/-- A constant that is accepted is bound to the number that evaluation binds it to. -/
theorem constants_of_constant {ident : String} {value : Expr} {x : Float}
    (h : constant (c.scopes.get? .global) value c = (.ok (.number x), c))
    (hc : c.Binds constants) :
    (Decl.constant ident value).constants constants = constants.bind ident x := by
  cases value with
  | number y =>
    obtain ⟨⟨⟩, -⟩ := Prod.mk.inj h
    rfl
  | name other =>
    have hother := hc other
    rw [constant] at h
    cases hglobal : c.scopes.get? .global other with
    | none =>
      rw [hglobal] at h
      exact absurd (Prod.mk.inj h).1 (by simp)
    | some b =>
      rw [hglobal] at h hother
      obtain ⟨hb, -⟩ := Prod.mk.inj h
      obtain ⟨y, hy, hvalue⟩ := Option.map_eq_some_iff.mp hother.symm
      obtain rfl := Value.number.inj (hvalue.trans (Except.ok.inj hb))
      rw [Decl.constants, hy]
  | text | call | binary => exact absurd (Prod.mk.inj h).1 (by simp)

theorem binds_of_defineConstant {ident : String} {value : Expr}
    (h : defineConstant ident value c = (.ok (), c')) (hc : c.Binds constants) :
    c'.Binds ((Decl.constant ident value).constants constants) := by
  rcases defineConstant_apply ident value c with ⟨e, -, he⟩ | ⟨v, hv, -, heq⟩
  · rw [he] at h
    exact absurd (Prod.mk.inj h).1 (by simp)
  · rw [heq] at h
    obtain ⟨hok, rfl⟩ := Prod.mk.inj h
    cases v with
    | bit | text | param | slot | temp => exact absurd hok (by simp)
    | number x =>
      intro other
      rw [constants_of_constant hv hc, Context.bindGlobal, ScopeTable.get?_bind, Bindings.bind]
      by_cases hname : other = ident
      · simp [hname]
      · simp [hname, hc other]

theorem binds_of_decl {d : Decl} (h : decl d c = (.ok (), c')) (hc : c.Binds constants) :
    c'.Binds (d.constants constants) := by
  cases d with
  | function head ss =>
    obtain ⟨id, c₁, f, bound, last, lowered, finished, hdeclares, -, -, -, -, -, rfl⟩ :=
      exists_of_define h
    intro ident
    rw [Context.globals_withFrame]
    exact binds_of_declares hdeclares hc ident
  | external head =>
    obtain ⟨id, c₁, hdeclare, hpure⟩ := bind_eq_ok_iff.mp h
    obtain ⟨-, rfl⟩ := Prod.mk.inj hpure
    exact binds_of_declares (declares_of_eq hdeclare) hc
  | constant ident value =>
    rw [decl] at h
    exact binds_of_defineConstant h hc

end Lowering

theorem Accepts.binds {c c' : Context} {ds : List Decl} (h : Accepts c ds c') :
    ∀ {constants : Bindings Float}, c.Binds constants →
      c'.Binds (ds.foldl Decl.constants constants) := by
  induction h with
  | nil => exact id
  | cons accepted _ ih => exact fun hc ↦ ih (Lowering.binds_of_decl accepted hc)

/-! ## Programs -/

/-- The machine that runs a function of a module. -/
def Context.machine (c : Context) (f : Function) (args : List Datum) (answers : Answers) :
    Machine :=
  ⟨f, c.symbols.texts, c.signatures, args, answers⟩

namespace Lowering

variable {c c₁ c' : Context} {head : Prototype} {ss : List Stmt} {args : List Datum}
  {answers : Answers} {constants : Bindings Float}

theorem consistent_of_declares {id : Nat} (h : Declares c head id c₁) (hc : c.Consistent) :
    c₁.Consistent := by
  cases h with
  | again => exact hc
  | first => exact hc.declare head

/-- A function that was defined without error is run as its body is evaluated, whatever is declared
after it. -/
theorem ends_of_define (hdefine : define head ss c = (.ok (), c₁)) (hextends : c₁.Extends c')
    (hc : c.Consistent) (hc' : c'.Consistent) (hconstants : c.Binds constants)
    (hstorable : ∀ p ∈ head.params, p.ty.isStorable = true)
    (htypes : args.map Datum.ty = head.params.map Param.ty)
    (hanswers : answers.Typed c'.signatures) :
    ∃ f, c'.function? head.ident = some f ∧ ∀ rounds, (c'.machine f args answers).Ends rounds
      (fun _ history s ↦ (c'.machine f args answers).step s = .returned none history) .start
      (World.runBody ⟨constants, answers⟩ head ss args rounds) := by
  obtain ⟨id, c₂, f, bound, last, lowered, finished, hdeclares, hf, hmatches, hblocks, hbody,
    hframe, rfl⟩ := exists_of_define hdefine
  have hparams : f.params.map Param.ty = head.params.map Param.ty := by
    rw [(consistent_of_declares hdeclares hc).params f (List.mem_of_getElem? hf), hmatches.params,
      List.filter_eq_self.mpr]
    intro ty hty
    obtain ⟨p, hp, rfl⟩ := List.mem_map.mp hty
    exact hstorable p hp
  -- What is declared later does not touch a function that has blocks.
  obtain ⟨g, hg, -, -, hsame⟩ := hextends.functions id _ (Context.getElem?_withFrame hf)
  obtain rfl := hsame (wellFormed_of_lowersBody hbody hblocks).hasEntry
  have hid : (c₂.withFrame id finished.leave).functionId? head.ident = some id := by
    rw [Context.functionId?_withFrame hf hframe.signature, hdeclares.functionId?]
  refine ⟨finished.leave.function, ?_, fun rounds ↦ ?_⟩
  · rw [Context.function?, hextends.functionId? hid, Option.bind_some, hg]
  have hsignatures : c₂.signatures ⊆ c'.signatures := by
    rw [← Context.signatures_withFrame hf hframe.signature]
    exact hextends.signatures_subset
  have hallots : finished.Allots c₂.outer :=
    (((Frame.Continues.of_binds hbody.binds).trans (.of_lowers hbody.lowers)).trans
      (.of_finishes _ hbody.finishes)).allots (Frame.allots_of_empty rfl)
  have hlinked : (c'.machine finished.leave.function args answers).Linked ⟨constants, answers⟩
      c₂.outer finished.locals := by
    refine ⟨rfl, fun s hs ↦ hanswers s (hsignatures hs),
      fun s hs ↦ hc'.find?_symbol (hsignatures hs), fun ident ↦ ?_, hallots⟩
    rw [Context.outer, hdeclares.scopes_eq]
    exact hconstants ident
  exact ends_of_lowersBody hbody hblocks hparams htypes hlinked rfl hextends.texts rfl rounds

end Lowering

/-- Running the blocks of a function of a source text that compiles comes to what direct evaluation
of its body comes to: it returns the same after the same calls, or runs forever as well. Evaluation
does not fail, except that it may read a local that was not set. -/
theorem compile_preserves {source : String} {before after : List Decl} {head : Prototype}
    {ss : List Stmt} {args : List Datum} {answers : Answers}
    (hok : (compile source).outcome = .ok ())
    (hseen : (compile source).seen = before ++ .function head ss :: after)
    (hargs : args.map Datum.ty = head.params.map Param.ty)
    (hanswers : answers.Typed (compile source).context.signatures) :
    ∃ f, (compile source).context.function? head.ident = some f ∧
      (∀ value history,
        World.Returns ⟨constantsAfter before, answers⟩ head ss args value history →
        ((compile source).context.machine f args answers).Returns value history) ∧
      (World.Diverges ⟨constantsAfter before, answers⟩ head ss args →
        ((compile source).context.machine f args answers).Diverges) ∧
      ∀ rounds, World.runBody ⟨constantsAfter before, answers⟩ head ss args rounds ≠
        .fault .mismatch := by
  obtain ⟨haccepts, hparams⟩ := accepts_of_compileTokens hok
  change Accepts .empty (compile source).seen (compile source).context at haccepts
  change ∀ d ∈ (compile source).seen, _ at hparams
  have hc' := haccepts.moves Lowering.decl_consistent Context.consistent_empty
  rw [hseen] at haccepts hparams
  -- The declarations before the definition bind the constants in force, and those behind it leave
  -- its function alone.
  obtain ⟨c, hbefore, hrest⟩ := haccepts.append
  obtain _ | ⟨hdefine, hafter⟩ := hrest
  have hconstants : c.Binds (constantsAfter before) := hbefore.binds fun _ ↦ rfl
  obtain ⟨f, hf, hends⟩ := Lowering.ends_of_define hdefine (hafter.moves Lowering.decl_extends)
    (hbefore.moves Lowering.decl_consistent Context.consistent_empty) hc'
    hconstants (hparams (.function head ss) (by simp) head rfl) hargs hanswers
  refine ⟨f, hf, fun value history ⟨rounds, hreturns⟩ ↦ (hends rounds).returns hreturns,
    fun hdiverges ↦ .of_runs fun rounds ↦ ?_, fun rounds hfault ↦ ?_⟩
  · have hend := hends rounds
    rw [hdiverges rounds] at hend
    exact hend
  · have hend := hends rounds
    rw [hfault] at hend
    exact hend

/-- The answer to a call is stored in a local, which is passed on and returned. -/
theorem compile_preserves_calls :
    let source :=
      "extern string g(string s); def string f(string a) \x7b set b = g(a); g(b); return b; \x7d"
    let c := (compile source).context
    ∃ f, c.function? "f" = some f ∧
      (c.machine f [.text "x"] fun _ _ ↦ some (.text "y")).Returns (some (.text "y"))
        [⟨"g", [.text "x"]⟩, ⟨"g", [.text "y"]⟩] := by
  intro source c
  have hseen : (compile source).seen =
      [.external ⟨.string, "g", [⟨.string, "s"⟩]⟩] ++
        .function ⟨.string, "f", [⟨.string, "a"⟩]⟩
          [.assign "b" (.call "g" [.name "a"]), .eval (.call "g" [.name "b"]),
            .ret (.name "b")] :: [] := by
    decide +kernel
  have hargs : [Datum.text "x"].map Datum.ty = [(⟨.string, "a"⟩ : Param)].map Param.ty := rfl
  have hret : ∀ s ∈ c.signatures, s.ret = .string := by decide +kernel
  have hanswers : Answers.Typed (fun _ _ ↦ some (.text "y")) c.signatures :=
    fun s hs _ _ ↦ by rw [hret s hs]; rfl
  obtain ⟨f, hf, hreturns, -⟩ :=
    compile_preserves (Lowering.eq_ok_of_isOk (by decide +kernel)) hseen hargs hanswers
  exact ⟨f, hf, hreturns _ _ ⟨0, rfl⟩⟩

end BlockCompiler
