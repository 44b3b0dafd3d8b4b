import BlockCompiler.Proofs.ParseFailure
import BlockCompiler.Proofs.Refusal
import BlockCompiler.Proofs.Verification

/-!
# What is reported

A source text is answered with a finished module, or with the report of the first error in the order
of its declarations. No report is internal: what the parser and lowering test for their own sake is
never found (`ParseError.isDefensive`, `LoweringError.isDefensive`), and a finished module obeys the
rules that a verifier tests (`Context.WellFormed`). The verifier is not part of the development; it
is a parameter that accepts modules of this kind.
-/

namespace BlockCompiler

/-! ## Defensive causes -/

namespace LoweringError

variable {e : LoweringError}

/-- The causes for which declarations are refused are those of programs. -/
theorem isDefensive_of_isOf {d : Decl} (h : e.isOf d) : e.isDefensive = false := by
  cases d with
  | function head ss => cases e <;> simp_all [isOf, isOfHead, isOfBody, isDefensive]
  | external head => cases e <;> simp_all [isOf, isOfHead, isDefensive]
  | constant ident value => cases e <;> simp_all [isOf, isOfConstant, isDefensive]

/-- What is internal is defensive. -/
theorem category_ne_internal (h : e.isDefensive = false) : e.category ≠ .internal := by
  cases e <;> simp_all [isDefensive, category]

end LoweringError

namespace Context

variable {ds : List Decl} {e : LoweringError}

/-- No declaration of a run is refused for a defensive cause. -/
theorem isDefensive_of_mem_outcomes (hparsed : ∀ d ∈ ds, d.Parsed)
    (h : .error e ∈ empty.outcomes ds) : e.isDefensive = false := by
  obtain ⟨i, hi⟩ := List.getElem?_of_mem h
  rw [getElem?_outcomes] at hi
  obtain ⟨d, hd, he⟩ := Option.map_eq_some_iff.mp hi
  have hbefore : ∀ d ∈ ds.take i, d.Parsed := fun d hd ↦ hparsed d (List.mem_of_mem_take hd)
  exact LoweringError.isDefensive_of_isOf
    (Lowering.isOf_of_error hbefore (hparsed d (List.mem_of_getElem? hd)) (Prod.ext he rfl))

end Context

/-! ## Compiling -/

/-- The module of a text without error obeys the rules. -/
theorem wellFormed_compile {source : String} (h : (compile source).outcome = .ok ()) :
    (compile source).context.WellFormed := by
  have hphases := twoPhase_compile source
  have hparsed := parsed_of_mem_seen source
  generalize compile source = r at h hphases hparsed ⊢
  cases hphases with
  | refused => exact absurd h (by simp)
  | accepted accepted => exact Context.wellFormed_of_accepts hparsed (Accepts.iff_forM.mpr accepted)

/-- The error of a text is not defensive. -/
theorem isDefensive_compile {source : String} {cause : LoweringError}
    (h : (compile source).outcome = .error (.lowering cause)) : cause.isDefensive = false := by
  have hphases := twoPhase_compile source
  have hparsed := parsed_of_mem_seen source
  generalize compile source = r at h hphases hparsed
  cases hphases with
  | @refused before rest d c₁ c₂ _ split accepted refused =>
    obtain rfl := CompileError.lowering.inj (Except.error.inj h)
    obtain ⟨hbefore, hd⟩ := List.forall_mem_append.mp hparsed
    rw [(Accepts.iff_forM.mpr accepted).eq_foldl] at refused
    exact LoweringError.isDefensive_of_isOf
      (Lowering.isOf_of_error hbefore (hd d (List.mem_singleton_self d)) refused)
  | accepted =>
    cases hstop : (Parse.declarations (Token.ofSource source)).2 <;> simp [hstop] at h

/-- A verifier that accepts the modules which obey the rules has no part in the answer. -/
theorem compileVerified_eq {verify : Context → Option String}
    (hverify : ∀ c : Context, c.WellFormed → verify c = none) (source : String) :
    compileVerified verify source =
      ((compile source).outcome.mapError CompileError.diagnostic).map
        fun _ ↦ (compile source).context := by
  rw [compileVerified]
  cases h : (compile source).outcome with
  | error cause => rfl
  | ok => simp only [hverify _ (wellFormed_compile h)]; rfl

/-- No report is internal, if the verifier accepts the modules that obey the rules. In every run of
declarations from source texts, going on after errors, no test that lowering makes for its own sake
fails, and in every sequence of calls of the parser, going on after errors, none that the parser
makes. The declarations of such a sequence are those meant. -/
theorem no_internal_report :
    (∀ verify : Context → Option String, (∀ c : Context, c.WellFormed → verify c = none) →
      ∀ source e, compileVerified verify source = .error e → e.category ≠ .internal) ∧
      (∀ ds : List Decl, (∀ d ∈ ds, d.Parsed) → ∀ e, .error e ∈ Context.empty.outcomes ds →
        e.isDefensive = false) ∧
      (∀ source calls cause, .error cause ∈ Parse.session calls (Token.ofSource source) →
        cause.isDefensive = false) ∧
      ∀ source calls t, .ok t ∈ Parse.session calls (Token.ofSource source) →
        ∀ d ∈ t.decls, d.Parsed := by
  refine ⟨fun verify hverify source e he ↦ ?_,
    fun ds hparsed e ↦ Context.isDefensive_of_mem_outcomes hparsed,
    fun source calls cause ↦ Parse.isDefensive_of_mem_session,
    fun source calls t ↦ Parse.parsed_of_mem_session (List.suffix_refl _)⟩
  rw [compileVerified_eq hverify] at he
  cases h : (compile source).outcome with
  | ok =>
    rw [h] at he
    exact absurd he (by simp [Except.mapError, Except.map])
  | error cause =>
    rw [h] at he
    obtain rfl := Except.error.inj he
    cases cause with
    | parse => exact nofun
    | lowering cause => exact LoweringError.category_ne_internal (isDefensive_compile h)

/-- The call of an unknown function is reported, and so are tokens that fit none of the calls of a
parser. -/
theorem no_internal_report_unknown_function :
    (∃ e, compileVerified (fun _ ↦ none) "def void f() \x7b g(); \x7d" = .error e ∧
      e.category ≠ .internal) ∧
      (∀ e, .error e ∈ Context.empty.outcomes
        [.function ⟨.void, "f", []⟩ [.eval (.call "g" [])], .external ⟨.double, "f", []⟩] →
        e.isDefensive = false) ∧
      ∀ cause, .error cause ∈ Parse.session [.stmt, .declaration, .expr, .program]
        (Token.ofSource ") if def (") → cause.isDefensive = false := by
  obtain ⟨hreport, hruns, hcalls, -⟩ := no_internal_report
  refine ⟨?_, hruns _ ?_, hcalls _ _⟩
  · have houtcome : (compile "def void f() \x7b g(); \x7d").outcome =
        .error (.lowering (.unknownFunction "g")) := by decide +kernel
    have hanswer := compileVerified_eq (fun _ _ ↦ rfl) "def void f() \x7b g(); \x7d"
    rw [houtcome] at hanswer
    exact ⟨_, hanswer, hreport _ (fun _ _ ↦ rfl) _ _ hanswer⟩
  · simp only [List.forall_mem_cons]
    exact ⟨parsed_of_first "def void f() \x7b g(); \x7d" (by decide +kernel),
      parsed_of_first "extern double f();" (by decide +kernel), nofun⟩

/-- A run that lowers declarations as they are parsed is the one that parses them all first and then
lowers them: it sees the declarations up to the first that is refused, its error is the one of this
declaration, or else the one of the parser, and else its module is what all of them lead to. If the
whole text can be parsed, the run is one fold over the declarations. What comes behind a declaration
that is refused has no part in it, and neither has a verifier. -/
theorem compile_in_phases (source : String) :
    (∀ r, TwoPhase .empty (Parse.declarations (Token.ofSource source)).1
        (Parse.declarations (Token.ofSource source)).2 r ↔ r = compile source) ∧
      (compile source).context = Context.after (compile source).seen ∧
      (∀ ds, (Parse.program (Token.ofSource source)).result = .ok ds →
        ((compile source).outcome, (compile source).context) =
          ((forM ds Lowering.decl .empty).1.mapError .lowering,
            (forM ds Lowering.decl .empty).2)) ∧
      (∀ cause source', (compile source).outcome = .error (.lowering cause) →
        (compile source).seen <+: (Parse.declarations (Token.ofSource source')).1 →
        compile source' = compile source) ∧
      ∀ verify : Context → Option String, (∀ c : Context, c.WellFormed → verify c = none) →
        compileVerified verify source =
          ((compile source).outcome.mapError CompileError.diagnostic).map
            fun _ ↦ (compile source).context := by
  have hphases := twoPhase_compile source
  refine ⟨TwoPhase.iff_eq_compileTokens _ _, hphases.context_eq, fun ds hds ↦ ?_,
    fun cause source' hcause hseen ↦ ?_, fun verify hverify ↦ compileVerified_eq hverify source⟩
  · rw [Parse.declarations_eq_iff.mpr hds] at hphases
    exact hphases.forM_eq
  · exact ((TwoPhase.iff_eq_compileTokens _ _ _).mp (hphases.of_refused hcause hseen)).symm

/-- The second declaration is refused, so that it does not matter whether the text can be parsed
behind it. -/
theorem compile_in_phases_refused :
    compile "extern double g(); def void f() \x7b h(); \x7d )" =
      compile "extern double g(); def void f() \x7b h(); \x7d const x = 1" ∧
      compileVerified (fun _ ↦ none) "extern double g(); def void f() \x7b h(); \x7d const x = 1" =
        .error ⟨.resolution, "could not find function: h"⟩ := by
  have houtcome : (compile "extern double g(); def void f() \x7b h(); \x7d const x = 1").outcome =
      .error (.lowering (.unknownFunction "h")) := by decide +kernel
  obtain ⟨-, -, -, hrefused, hverified⟩ :=
    compile_in_phases "extern double g(); def void f() \x7b h(); \x7d const x = 1"
  refine ⟨hrefused _ _ houtcome (by decide +kernel), ?_⟩
  rw [hverified _ fun _ _ ↦ rfl, houtcome]
  rfl

end BlockCompiler
