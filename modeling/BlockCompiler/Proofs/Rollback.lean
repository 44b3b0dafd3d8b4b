import BlockCompiler.Proofs.Declaration
import BlockCompiler.Proofs.Parsing

/-!
# Failed expressions leave no code

An operator and a call take back what their operands appended, at every depth, so an expression that
is refused leaves the block as it was, and with it the whole module but for string constants. There
is one exception: a call of a function without result is lowered completely before its missing value
is found to be asked for, and stays (`Lowering.failed_expr_leaves_no_code`). Within an operator or
an argument list even such a call is taken back.
-/

namespace BlockCompiler

/-! ## Contexts -/

namespace Context

/-- A context that the lowering of declarations from source texts passes through: between two of
them, or within a body, whatever has been done to its function so far. -/
inductive Reached : Context → Prop
  | between {ds : List Decl} (parsed : ∀ d ∈ ds, d.Parsed) : Reached (after ds)
  | within {ds : List Decl} {head : Prototype} {ss : List Stmt} {id : Nat} {c : Context}
      {f : Function} {fr : Frame} (parsed : ∀ d ∈ ds, d.Parsed)
      (bodyParsed : (Decl.function head ss).Parsed)
      (headOk : Lowering.declare head (after ds) = (.ok id, c)) (at? : c.functions[id]? = some f)
      (kept : fr.function.signature = f.signature) : Reached (c.withFrame id fr)

/-- Every function is declared with a type of the language as its result. -/
def Returning (c : Context) : Prop := ∀ s ∈ c.signatures, s.ret ≠ .invalid

theorem Returning.declare {c : Context} {head : Prototype} (h : c.Returning)
    (hhead : head.Writable) : (c.declare head).Returning := by
  intro s hs
  rw [signatures_declare, List.mem_append, List.mem_singleton] at hs
  rcases hs with hs | rfl
  · exact h s hs
  · exact hhead.ret

theorem returning_after {ds : List Decl} (hds : ∀ d ∈ ds, d.Parsed) : (after ds).Returning := by
  refine after_induction_of_mem ds nofun fun c d hd ↦ ?_
  refine Lowering.moves_of_decl (R := Lowering.Keeps Returning) (fun c head hhead _ h ↦ ?_)
    (fun c id f head ss _ hf _ _ h ↦ ?_) (fun _ _ _ _ h ↦ h) c
  · have hhead : d.head? = some head := by rcases hhead with rfl | ⟨ss, rfl⟩ <;> rfl
    exact h.declare ((hds d hd).head hhead).2
  · rw [Returning, signatures_withFrame hf (Lowering.body_moves head ss c.outer _).signature]
    exact h

theorem Reached.returning {c : Context} (h : c.Reached) : c.Returning := by
  cases h with
  | between parsed => exact returning_after parsed
  | within parsed bodyParsed headOk at? kept =>
    rw [Returning, signatures_withFrame at? kept]
    exact (Lowering.declares_of_eq headOk).keeps (fun _ h ↦ h.declare (bodyParsed.head rfl).2)
      (returning_after parsed)

/-- Nothing is changed but that string constants may have been added. -/
def AddsTexts (c c' : Context) : Prop :=
  ∃ symbols, c' = { c with symbols } ∧ c.symbols.Extends symbols

end Context

/-! ## Expressions -/

namespace Lowering

/-- The expression is a call of a function without result whose arguments are lowered and match, and
the second tape is the one behind the call. -/
inductive VoidCall (env : Env) (t : Tape) : Expr → Tape → Prop
  | intro {ident : String} {args : List Expr} {callee : Signature} {values : List Value}
      {t₁ : Tape} (known : env.callee? ident = some callee) (void : callee.ret = .void)
      (arity : callee.params.length = args.length)
      (argsOk : arguments env ident args callee.params t = (.ok values, t₁)) :
      VoidCall env t (.call ident args)
        ⟨t₁.code ++ [.call callee.symbol .void values], t₁.symbols⟩

section

variable {env : Env} {t t' : Tape} {cause : LoweringError}

/-- The call stays behind the code that was there and that of its arguments. -/
theorem VoidCall.extends {e : Expr} (h : VoidCall env t e t') : t.Extends t' := by
  cases h with
  | @intro ident args callee _ _ _ _ _ argsOk =>
    exact ((arguments_moves env ident args callee.params).of_eq argsOk).trans
      ⟨⟨_, rfl, by simp [Instr.isTerminator]⟩, .refl _⟩

theorem not_voidCall_binary {op : Operator} {lhs rhs : Expr} :
    ¬∃ t', VoidCall env t (.binary op lhs rhs) t' :=
  fun ⟨_, h⟩ ↦ nomatch h

/-- The value of such a call is missing, and the call stays. -/
theorem VoidCall.expr_eq {e : Expr} (h : VoidCall env t e t') :
    ∃ ident, expr env e t = (.error (.voidUsed ident), t') := by
  cases h with
  | @intro ident args callee values t₁ known void arity argsOk =>
    refine ⟨ident, ?_⟩
    have hcall : call env ident args t =
        (.ok none, ⟨t₁.code ++ [.call callee.symbol .void values], t₁.symbols⟩) :=
      call_eq_ok_iff.mpr ⟨callee, values, t₁, known, arity, argsOk, by rw [void]; rfl⟩
    rw [expr, ← call, bind_apply, hcall]
    rfl

theorem code_of_readName_error {ident : String} (h : readName env ident t = (.error cause, t')) :
    t'.code = t.code := by
  rw [readName] at h
  cases hlocal : env.locals ident with
  | some b =>
    simp only [hlocal] at h
    rcases bind_eq_error_iff.mp h with haddress | ⟨slot, t₁, haddress, h⟩
    · rw [address_apply] at haddress
      rw [← (Prod.mk.inj haddress).2]
    · rw [address_apply] at haddress
      obtain ⟨-, rfl⟩ := Prod.mk.inj haddress
      rw [bind_require_apply] at h
      split at h
      · exact absurd (Prod.mk.inj h).1 nofun
      · rw [← (Prod.mk.inj h).2]
  | none =>
    rw [hlocal] at h
    cases hglobal : env.globals ident with
    | some b =>
      rw [hglobal] at h
      exact absurd (Prod.mk.inj h).1 nofun
    | none =>
      rw [hglobal] at h
      rw [← (Prod.mk.inj h).2]

/-- A call that is refused is refused before it appends its own instruction. -/
theorem code_of_call_error {ident : String} {args : List Expr}
    (h : call env ident args t = (.error cause, t')) : t'.code = t.code := by
  rw [call, callWith] at h
  cases hcallee : env.callee? ident with
  | none =>
    rw [hcallee] at h
    rw [← (Prod.mk.inj h).2]
  | some callee =>
    simp only [hcallee, bind_require_apply] at h
    split at h
    · rcases bind_eq_error_iff.mp h with hrewound | ⟨values, t₁, -, hemit⟩
      · exact code_rewinding_of_error (arguments_moves env ident args _) hrewound
      · cases (Prod.mk.inj hemit).1
    · rw [← (Prod.mk.inj h).2]

/-- A call yields no value only if its function has no result. -/
theorem voidCall_of_call {ident : String} {args : List Expr}
    (h : call env ident args t = (.ok none, t')) (hret : ∀ s ∈ env.signatures, s.ret ≠ .invalid) :
    VoidCall env t (.call ident args) t' := by
  obtain ⟨callee, values, t₁, hcallee, arity, hvalues, hemit⟩ := call_eq_ok_iff.mp h
  obtain ⟨hnone, rfl⟩ := Prod.mk.inj hemit
  have hvoid : callee.ret = .void := by
    have hinvalid := hret callee (List.mem_of_find?_eq_some hcallee)
    cases hty : callee.ret with
    | void => rfl
    | invalid => exact absurd hty hinvalid
    | double | string => simp [hty, Ty.isStorable] at hnone
  have hcall := VoidCall.intro hcallee hvoid arity hvalues
  rwa [← hvoid] at hcall

/-- An expression that is refused takes its code back, unless it is a call of a function without
result. -/
theorem code_of_expr_error {e : Expr} (h : expr env e t = (.error cause, t'))
    (hret : ∀ s ∈ env.signatures, s.ret ≠ .invalid) :
    t'.code = t.code ∨ VoidCall env t e t' := by
  cases e with
  | number => cases (Prod.mk.inj h).1
  | text => cases (Prod.mk.inj h).1
  | name ident => exact .inl (code_of_readName_error h)
  | call ident args =>
    rw [expr, ← call] at h
    rcases bind_eq_error_iff.mp h with hcall | ⟨result, t₁, hcall, hvalue⟩
    · exact .inl (code_of_call_error hcall)
    · cases result with
      | some v => cases (Prod.mk.inj hvalue).1
      | none =>
        obtain ⟨-, rfl⟩ := Prod.mk.inj hvalue
        exact .inr (voidCall_of_call hcall hret)
  | binary op lhs rhs =>
    rw [expr] at h
    exact .inl (code_rewinding_of_error ((expr_moves env lhs).bind fun l ↦
      (expr_moves env rhs).bind fun r ↦ combine_moves op l r) h)

end

/-! ## At the end of a block -/

/-- A step at the end of a block of the function with the given number. -/
def atEnd {α : Type} (id block : Nat) (m : Env → Lowering Tape α) : Lowering Context α :=
  inFunction id fun outer ↦ within outer block m

section

variable {α : Type} {c c' : Context} {id block : Nat} {f : Function} {m : Env → Lowering Tape α}

theorem atEnd_apply (hf : c.functions[id]? = some f) :
    atEnd id block m c =
      ((m ((c.frame id f).env c.outer) ((c.frame id f).tape block)).1,
        c.withFrame id ((c.frame id f).withTape block
          (m ((c.frame id f).env c.outer) ((c.frame id f).tape block)).2)) := by
  rw [atEnd, inFunction, hf]
  rfl

/-- Only the block and the string constants are touched. -/
theorem withFrame_withTape (c : Context) (id : Nat) (f : Function) (block : Nat) (t : Tape) :
    c.withFrame id ((c.frame id f).withTape block t) =
      { c with
        functions := c.functions.set id (f.setCode block t.code)
        symbols := t.symbols } := by
  rw [Context.withFrame, Frame.withTape, Context.frame, ScopeTable.replace_get?]

theorem withFrame_withTape_of_code_eq (hf : c.functions[id]? = some f) {t : Tape}
    (h : t.code = f.code block) :
    c.withFrame id ((c.frame id f).withTape block t) = { c with symbols := t.symbols } := by
  obtain ⟨hlt, rfl⟩ := List.getElem?_eq_some_iff.mp hf
  rw [withFrame_withTape, h, Function.setCode_code, List.set_getElem_self]

theorem addsTexts_of_error (hf : c.functions[id]? = some f) {t : Tape}
    (h : ((c.frame id f).tape block).Extends t) (hcode : t.code = f.code block) :
    c.AddsTexts (c.withFrame id ((c.frame id f).withTape block t)) :=
  ⟨t.symbols, withFrame_withTape_of_code_eq hf hcode, h.symbols⟩

end

/-- In every context that is reached, a call or an expression that is refused at the end of a block
leaves the module as it was, but for string constants. The exception is an expression that itself is
a call of a function without result whose arguments are lowered and match: it is refused, and the
code of its arguments and of the call stays. -/
theorem failed_expr_leaves_no_code {c : Context} (hc : c.Reached) {id : Nat} {f : Function}
    (hf : c.functions[id]? = some f) (block : Nat) :
    (∀ ident args cause c', atEnd id block (fun env ↦ call env ident args) c = (.error cause, c') →
        c.AddsTexts c') ∧
      (∀ e cause c',
        (¬∃ t, VoidCall ((c.frame id f).env c.outer) ((c.frame id f).tape block) e t) →
        atEnd id block (fun env ↦ expr env e) c = (.error cause, c') → c.AddsTexts c') ∧
      ∀ e t, VoidCall ((c.frame id f).env c.outer) ((c.frame id f).tape block) e t →
        ∃ ident more, t.code = f.code block ++ more ∧ c.symbols.Extends t.symbols ∧
          atEnd id block (fun env ↦ expr env e) c =
            (.error (.voidUsed ident),
              { c with
                functions := c.functions.set id (f.setCode block t.code)
                symbols := t.symbols }) := by
  refine ⟨fun ident args cause c' h ↦ ?_, fun e cause c' hnot h ↦ ?_, fun e t h ↦ ?_⟩
  · rw [atEnd_apply hf] at h
    obtain ⟨hresult, rfl⟩ := Prod.mk.inj h
    exact addsTexts_of_error hf (call_moves _ ident args _)
      (code_of_call_error (Prod.ext hresult rfl))
  · rw [atEnd_apply hf] at h
    obtain ⟨hresult, rfl⟩ := Prod.mk.inj h
    refine addsTexts_of_error hf (expr_moves _ e _) ?_
    exact (code_of_expr_error (Prod.ext hresult rfl) hc.returning).resolve_right
      fun hvoid ↦ hnot ⟨_, hvoid⟩
  · obtain ⟨ident, hexpr⟩ := h.expr_eq
    obtain ⟨more, hmore, -⟩ := h.extends.code
    refine ⟨ident, more, hmore, h.extends.symbols, ?_⟩
    rw [atEnd_apply hf, hexpr, withFrame_withTape]

/-- In the refused body of `f`, behind its parameter and a call of `g`: within a sum another call of
`g` is taken back, and by itself it stays. -/
theorem failed_expr_void_call :
    let c := Context.after [.external ⟨.void, "g", [⟨.string, "s"⟩]⟩,
      .function ⟨.double, "f", [⟨.double, "x"⟩]⟩ [.eval (.call "g" [.text "a"])]]
    let f := (c.functions[1]?).getD (Function.declared ⟨.double, "f", [⟨.double, "x"⟩]⟩ "f")
    let sum : Expr := .binary .add (.name "x") (.call "g" [.text "b"])
    f.code 0 = [.store (.param 0 .double) (.slot 0 .double), .call "g" .void [.text 0]] ∧
      c.AddsTexts (atEnd 1 0 (fun env ↦ expr env sum) c).2 ∧
      (atEnd 1 0 (fun env ↦ expr env (.call "g" [.text "b"])) c).2.functions =
        c.functions.set 1 (f.setCode 0 (f.code 0 ++ [.call "g" .void [.text 1]])) := by
  intro c f sum
  have hreached : c.Reached := by
    refine .between ?_
    simp only [List.forall_mem_cons]
    exact ⟨parsed_of_first "extern void g(string s);" (by decide +kernel),
      parsed_of_first "def double f(double x) \x7b g(\"a\"); \x7d" (by decide +kernel), nofun⟩
  have hf : c.functions[1]? = some f := by decide +kernel
  obtain ⟨-, hexpr, hvoid⟩ := failed_expr_leaves_no_code hreached hf 0
  refine ⟨by decide +kernel, ?_, ?_⟩
  · have hfails : (atEnd 1 0 (fun env ↦ expr env sum) c).1.isOk = false := by decide +kernel
    rcases hresult : atEnd 1 0 (fun env ↦ expr env sum) c with ⟨cause | v, c'⟩
    · exact hexpr sum cause c' not_voidCall_binary hresult
    · rw [hresult] at hfails
      exact nomatch hfails
  · have hcall {env : Env} {t : Tape} (h : env.callee? "g" = some ⟨"g", "g", [.string], .void⟩) :
        VoidCall env t (.call "g" [.text "b"])
          ⟨t.code ++ [.call "g" .void [.text t.symbols.texts.length]], (t.symbols.addText "b").2⟩ :=
      @VoidCall.intro env t "g" [.text "b"] _ _ ⟨t.code, (t.symbols.addText "b").2⟩ h rfl rfl rfl
    have hknown : ((c.frame 1 f).env c.outer).callee? "g" = some ⟨"g", "g", [.string], .void⟩ := by
      decide +kernel
    have htexts : c.symbols.texts.length = 1 := by decide +kernel
    obtain ⟨_, _, -, -, heq⟩ := hvoid _ _ (hcall hknown)
    rw [heq, Frame.tape, Context.frame, htexts]

end Lowering

end BlockCompiler
