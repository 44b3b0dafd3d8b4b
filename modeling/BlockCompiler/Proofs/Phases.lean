import BlockCompiler.Proofs.Declaration
import BlockCompiler.Proofs.Parsing

/-!
# Compiling in two phases

Declarations are lowered as they are parsed, and a run ends with the first error of either kind. The
same run comes in two phases: the parser yields declarations up to the end of the text or to its
first error, and these are then lowered in order, up to the first that is refused (`TwoPhase`). The
error of the parser counts only if every declaration in front of it is accepted.
-/

namespace BlockCompiler

namespace Parse

/-- The declarations that are parsed one after the other, and the error that ends them, if any. -/
def declarations (ts : List Token) : List Decl × Option ParseError :=
  match nextDeclaration? ts with
  | none => ([], none)
  | some (.error cause _) => ([], some cause)
  | some (.ok d rest _) => (d :: (declarations rest).1, (declarations rest).2)
termination_by ts.length

/-- Parsing all declarations at once yields them all, or the error that ends them. -/
theorem result_program (ts : List Token) :
    (program ts).result = (declarations ts).2.elim (.ok (declarations ts).1) .error := by
  fun_induction declarations ts with
  | case1 ts hnext | case2 ts cause rest hnext => rw [program, hnext]; rfl
  | case3 ts d rest hlt hnext ih =>
    rw [program, hnext]
    dsimp only
    generalize program rest = o at ih ⊢
    cases hstop : (declarations rest).2 with
    | none =>
      rw [hstop] at ih
      obtain ⟨r, hr, rfl⟩ := Outcome.result_eq_ok_iff.mp ih
      rfl
    | some cause =>
      rw [hstop] at ih
      cases o with
      | ok => exact absurd ih (by simp [Outcome.result])
      | error => exact ih

theorem declarations_eq_iff {ts : List Token} {ds : List Decl} :
    declarations ts = (ds, none) ↔ (program ts).result = .ok ds := by
  rw [result_program]
  rcases declarations ts with ⟨_, _ | _⟩
  · simp
  · simp

/-- What is left behind a declaration is the end of the tokens. -/
theorem suffix_of_nextDeclaration? {ts rest : List Token} {d : Decl} {h : rest.length < ts.length}
    (heq : nextDeclaration? ts = some (.ok d rest h)) : rest <:+ ts := by
  unfold nextDeclaration? at heq
  split at heq
  · exact absurd heq (by simp)
  · next t r hle hskip _ =>
    have hdecl : (declaration t r).Yields d rest :=
      Outcome.yields_widen.mp ⟨h, Option.some.inj heq⟩
    obtain ⟨u, hu, -⟩ := declaration_sound (fun _ _ _ h ↦ h) hdecl
    refine List.IsSuffix.trans ?_ (skipSemis_suffix ts)
    rw [hskip, hu]
    exact List.suffix_append u rest

theorem parsed_of_mem_declarations {source : String} {ts : List Token}
    (hts : ts <:+ Token.ofSource source) : ∀ d ∈ (declarations ts).1, d.Parsed := by
  fun_induction declarations ts with
  | case1 | case2 => exact nofun
  | case3 ts d rest hlt hnext ih =>
    exact List.forall_mem_cons.mpr ⟨⟨source, ts, rest, hlt, hts, hnext⟩,
      ih ((suffix_of_nextDeclaration? hnext).trans hts)⟩

end Parse

/-! ## The two phases -/

/-- A run in two phases that starts from `c`: the declarations `ds` are lowered in order, and the
error `stop` of the parser comes behind them. -/
inductive TwoPhase (c : Context) (ds : List Decl) (stop : Option ParseError) : Compilation → Prop
  /-- The declaration `d` is the first that is refused. -/
  | refused {before rest : List Decl} {d : Decl} {c₁ c₂ : Context} {cause : LoweringError}
      (split : ds = before ++ d :: rest) (accepted : forM before Lowering.decl c = (.ok (), c₁))
      (refused : Lowering.decl d c₁ = (.error cause, c₂)) :
      TwoPhase c ds stop ⟨before ++ [d], .error (.lowering cause), c₂⟩
  /-- No declaration is refused. -/
  | accepted {c₁ : Context} (accepted : forM ds Lowering.decl c = (.ok (), c₁)) :
      TwoPhase c ds stop ⟨ds, stop.elim (.ok ()) fun cause ↦ .error (.parse cause), c₁⟩

namespace TwoPhase

variable {c c₁ : Context} {d : Decl} {ds : List Decl} {stop : Option ParseError}
  {r : Compilation}

theorem nil_iff : TwoPhase c [] stop r ↔
    r = ⟨[], stop.elim (.ok ()) fun cause ↦ .error (.parse cause), c⟩ := by
  constructor
  · rintro (⟨split, -, -⟩ | accepted)
    · exact absurd split (by simp)
    · obtain ⟨⟩ := Accepts.iff_forM.mpr accepted
      rfl
  · rintro rfl
    exact .accepted rfl

/-- A declaration that is refused ends the run. -/
theorem cons_iff_of_error {cause : LoweringError} (hd : Lowering.decl d c = (.error cause, c₁)) :
    TwoPhase c (d :: ds) stop r ↔ r = ⟨[d], .error (.lowering cause), c₁⟩ := by
  constructor
  · rintro (⟨split, accepted, refused⟩ | accepted)
    · rcases List.cons_eq_append_iff.mp split with ⟨rfl, heq⟩ | ⟨before, rfl, -⟩
      · obtain ⟨rfl, -⟩ := List.cons.inj heq
        obtain rfl := (Prod.mk.inj accepted).2
        obtain ⟨⟨⟩, rfl⟩ := Prod.mk.inj (refused.symm.trans hd)
        rfl
      · obtain _ | ⟨accepted, -⟩ := Accepts.iff_forM.mpr accepted
        exact absurd (accepted.symm.trans hd) (by simp)
    · obtain _ | ⟨accepted, -⟩ := Accepts.iff_forM.mpr accepted
      exact absurd (accepted.symm.trans hd) (by simp)
  · rintro rfl
    exact .refused (List.nil_append _).symm rfl hd

/-- A declaration that is accepted comes in front of the run that the others make. -/
theorem cons_iff_of_ok (hd : Lowering.decl d c = (.ok (), c₁)) :
    TwoPhase c (d :: ds) stop r ↔
      ∃ r', TwoPhase c₁ ds stop r' ∧ r = { r' with seen := d :: r'.seen } := by
  constructor
  · rintro (⟨split, accepted, refused⟩ | accepted)
    · rcases List.cons_eq_append_iff.mp split with ⟨rfl, heq⟩ | ⟨before, rfl, hrest⟩
      · obtain ⟨rfl, -⟩ := List.cons.inj heq
        obtain rfl := (Prod.mk.inj accepted).2
        exact absurd (refused.symm.trans hd) (by simp)
      · obtain _ | ⟨accepted, rest⟩ := Accepts.iff_forM.mpr accepted
        obtain rfl := (Prod.mk.inj (accepted.symm.trans hd)).2
        exact ⟨_, .refused hrest (Accepts.iff_forM.mp rest) refused, rfl⟩
    · obtain _ | ⟨accepted, rest⟩ := Accepts.iff_forM.mpr accepted
      obtain rfl := (Prod.mk.inj (accepted.symm.trans hd)).2
      exact ⟨_, .accepted (Accepts.iff_forM.mp rest), rfl⟩
  · have hcons {ds : List Decl} {c₂ : Context} (h : forM ds Lowering.decl c₁ = (.ok (), c₂)) :
        forM (d :: ds) Lowering.decl c = (.ok (), c₂) :=
      Accepts.iff_forM.mp (.cons hd (Accepts.iff_forM.mpr h))
    rintro ⟨r', ⟨rfl, accepted, refused⟩ | accepted, rfl⟩
    · exact .refused rfl (hcons accepted) refused
    · exact .accepted (hcons accepted)

/-- Lowering the declarations while they are parsed is a run in two phases, and the only one. -/
theorem iff_eq_compileTokens (c : Context) (ts : List Token) :
    ∀ r, TwoPhase c (Parse.declarations ts).1 (Parse.declarations ts).2 r ↔
      r = compileTokens c ts := by
  fun_induction compileTokens c ts with
  | case1 c ts hnext | case2 c ts cause rest hnext =>
    rw [Parse.declarations, hnext]
    exact fun r ↦ nil_iff
  | case3 c ts d rest hlt hnext cause c₁ hd =>
    rw [Parse.declarations, hnext]
    exact fun r ↦ cons_iff_of_error hd
  | case4 c ts d rest hlt hnext c₁ hd r₁ ih =>
    rw [Parse.declarations, hnext]
    refine fun r ↦ (cons_iff_of_ok hd).trans ⟨?_, fun h ↦ ⟨r₁, (ih r₁).mpr rfl, h⟩⟩
    rintro ⟨r', hr', rfl⟩
    rw [(ih r').mp hr']

/-- The context is the one that the declarations lead to which were begun. -/
theorem context_eq (h : TwoPhase .empty ds stop r) : r.context = Context.after r.seen := by
  rcases h with ⟨-, accepted, refused⟩ | accepted
  · rw [Context.after_concat, Context.after, ← (Accepts.iff_forM.mpr accepted).eq_foldl, refused]
  · rw [Context.after, ← (Accepts.iff_forM.mpr accepted).eq_foldl]

theorem isPrefix_seen (h : TwoPhase c ds stop r) : r.seen <+: ds := by
  rcases h with ⟨rfl, -, -⟩ | -
  · exact ⟨_, by rw [List.append_assoc]; rfl⟩
  · exact List.prefix_refl _

/-- What comes behind a declaration that is refused has no part in the run. -/
theorem of_refused {ds' : List Decl} {stop' : Option ParseError} {cause : LoweringError}
    (h : TwoPhase c ds stop r) (hr : r.outcome = .error (.lowering cause)) (hds : r.seen <+: ds') :
    TwoPhase c ds' stop' r := by
  rcases h with ⟨-, accepted, refused⟩ | -
  · obtain ⟨rest, hrest⟩ := hds
    exact .refused (by rw [← hrest, List.append_assoc]; rfl) accepted refused
  · cases stop with
    | none => exact absurd hr (by simp)
    | some => exact absurd hr (by simp)

/-- If the parser makes no error, the run is one fold over the declarations. -/
theorem forM_eq (h : TwoPhase c ds none r) :
    (r.outcome, r.context) =
      ((forM ds Lowering.decl c).1.mapError .lowering, (forM ds Lowering.decl c).2) := by
  rcases h with ⟨rfl, accepted, refused⟩ | accepted
  · rw [List.forM_append, Lowering.bind_apply, accepted, List.forM_cons]
    dsimp only
    rw [Lowering.bind_apply, refused]
    rfl
  · rw [accepted]
    rfl

end TwoPhase

/-- A run is the one in two phases. -/
theorem twoPhase_compile (source : String) :
    TwoPhase .empty (Parse.declarations (Token.ofSource source)).1
      (Parse.declarations (Token.ofSource source)).2 (compile source) :=
  (TwoPhase.iff_eq_compileTokens _ _ _).mpr rfl

/-- The declarations that a run has seen are parsed from its text. -/
theorem parsed_of_mem_seen (source : String) : ∀ d ∈ (compile source).seen, d.Parsed := fun d hd ↦
  Parse.parsed_of_mem_declarations (List.suffix_refl _) d
    ((twoPhase_compile source).isPrefix_seen.subset hd)

end BlockCompiler
