import BlockCompiler.Proofs.Parts
import BlockCompiler.Proofs.Phases
import BlockCompiler.Proofs.Register
import Mathlib.Data.List.Forall2

/-!
# What a program leaves in its module

Two kinds of expression leave something in a module that nothing else leaves: a string literal adds
a string constant, and a call appends a call instruction. In a program that compiles, none of them
is lost, made twice or moved.

String constants belong to the module and come in the order of the literals in the source text.
Calls belong to the function in whose body they stand. Its blocks do not come in the order of the
text, so each call has a block of its own choice, and within a block the instructions are in the
order of the calls.
-/

namespace BlockCompiler

/-! ## String constants -/

namespace Symbols

/-- Adds string constants one after the other. -/
def addTexts (s : Symbols) (contents : List String) : Symbols :=
  contents.foldl (fun s x ↦ (s.addText x).2) s

theorem addTexts_append (s : Symbols) (xs ys : List String) :
    s.addTexts (xs ++ ys) = (s.addTexts xs).addTexts ys :=
  List.foldl_append

theorem contents_addTexts (s : Symbols) (xs : List String) :
    (s.addTexts xs).texts.map TextConstant.contents =
      s.texts.map TextConstant.contents ++ xs.map storedText := by
  induction xs generalizing s with
  | nil => simp [addTexts]
  | cons x xs ih =>
    change ((s.addText x).2.addTexts xs).texts.map _ = _
    rw [ih]
    simp [addText]

/-- No two string constants have the same name. -/
structure Distinct (s : Symbols) : Prop where
  nodup : (s.texts.map TextConstant.symbol).Nodup
  used : ∀ x ∈ s.texts, x.symbol ∈ s.names.used

theorem Distinct.addText {s : Symbols} (h : s.Distinct) (contents : String) :
    (s.addText contents).2.Distinct := by
  have hfree := s.names.add_fst_not_mem "." "str"
  have hused := s.names.used_add "." "str"
  refine ⟨?_, fun x hx ↦ ?_⟩
  · simp only [Symbols.addText, List.map_append, List.map_singleton]
    refine List.nodup_append.mpr ⟨h.nodup, List.nodup_singleton _, fun symbol hsymbol _ hother ↦ ?_⟩
    obtain ⟨x, hx, rfl⟩ := List.mem_map.mp hsymbol
    obtain rfl := List.mem_singleton.mp hother
    exact fun heq ↦ hfree (heq ▸ h.used x hx)
  · change x.symbol ∈ (s.names.add "." "str").2.used
    rw [hused]
    rcases List.mem_append.mp hx with hx | hx
    · exact List.mem_cons_of_mem _ (h.used x hx)
    · rw [List.mem_singleton.mp hx]
      exact List.mem_cons_self

theorem Distinct.addTexts {s : Symbols} (h : s.Distinct) (xs : List String) :
    (s.addTexts xs).Distinct :=
  List.foldlRecOn xs _ h fun _ h x _ ↦ h.addText x

/-- A function takes no name of a string constant. -/
theorem Distinct.declare {c : Context} (h : c.symbols.Distinct) (head : Prototype) :
    (c.declare head).symbols.Distinct := by
  refine ⟨h.nodup, fun x hx ↦ ?_⟩
  change x.symbol ∈ (c.symbols.names.add "." head.ident).2.used
  rw [c.symbols.names.used_add]
  exact List.mem_cons_of_mem _ (h.used x hx)

end Symbols

/-! ## Call instructions -/

namespace Instr

def isCall : Instr → Bool
  | call _ _ _ => true
  | _ => false

/-- The instruction is that of a call: it calls the function that the call names, and it passes as
many values as the call has arguments. -/
inductive Calls (signatures : List Signature) : Instr → Expr → Prop
  | intro {ident : String} {args : List Expr} {callee : Signature} {values : List Value}
      (found : signatures.find? (·.ident = ident) = some callee)
      (arity : values.length = args.length) :
      Calls signatures (.call callee.symbol callee.ret values) (.call ident args)

theorem Calls.mono {signatures signatures' : List Signature} {i : Instr} {e : Expr}
    (h : Calls signatures i e) (hstarts : signatures <+: signatures') : Calls signatures' i e := by
  obtain ⟨found, arity⟩ := h
  exact .intro (hstarts.find?_eq_some found) arity

end Instr

/-- The instructions make the calls, one after the other. -/
abbrev MakeCalls (signatures : List Signature) (code : List Instr) (calls : List Expr) : Prop :=
  List.Forall₂ (Instr.Calls signatures) (code.filter Instr.isCall) calls

/-- The function makes the calls: each of them stands in a block, and the instructions of a block
make the calls that stand in it, in the order in which they are given. -/
def Function.Makes (signatures : List Signature) (f : Function) (calls : List Expr) : Prop :=
  ∃ placed : List (Nat × Expr), placed.map Prod.snd = calls ∧
    ∀ b, MakeCalls signatures (f.code b) ((placed.filter (·.1 = b)).map Prod.snd)

theorem MakeCalls.append {signatures : List Signature} {code more : List Instr}
    {calls calls' : List Expr} (h : MakeCalls signatures code calls)
    (h' : MakeCalls signatures more calls') :
    MakeCalls signatures (code ++ more) (calls ++ calls') := by
  rw [MakeCalls, List.filter_append]
  exact List.rel_append h h'

/-! ## Expressions -/

/-- What is left of expressions at the end of a block: the call instructions of the calls among
them, and a string constant for each literal. -/
structure Tape.Emits (signatures : List Signature) (parts : List Expr) (t t' : Tape) : Prop where
  code : ∃ more, t'.code = t.code ++ more ∧ MakeCalls signatures more (Expr.callsOf parts)
  symbols : t'.symbols = t.symbols.addTexts (Expr.textsOf parts)

namespace Tape.Emits

variable {signatures : List Signature} {ps qs : List Expr} {t t₁ t₂ t₃ : Tape}

theorem refl (t : Tape) : Emits signatures [] t t :=
  ⟨⟨[], (List.append_nil _).symm, .nil⟩, rfl⟩

theorem trans (h₁ : Emits signatures ps t₁ t₂) (h₂ : Emits signatures qs t₂ t₃) :
    Emits signatures (ps ++ qs) t₁ t₃ := by
  obtain ⟨more₁, hcode₁, hcalls₁⟩ := h₁.code
  obtain ⟨more₂, hcode₂, hcalls₂⟩ := h₂.code
  refine ⟨⟨more₁ ++ more₂, by rw [hcode₂, hcode₁, List.append_assoc], ?_⟩, ?_⟩
  · rw [Expr.callsOf_append]
    exact hcalls₁.append hcalls₂
  · rw [h₂.symbols, h₁.symbols, Expr.textsOf_append, Symbols.addTexts_append]

/-- Expressions that are neither calls nor string literals do not matter. -/
theorem congr (h : Emits signatures ps t₁ t₂) (hcalls : Expr.callsOf qs = Expr.callsOf ps)
    (htexts : Expr.textsOf qs = Expr.textsOf ps) : Emits signatures qs t₁ t₂ :=
  ⟨hcalls ▸ h.code, htexts ▸ h.symbols⟩

instance : Std.Refl (Emits signatures []) := ⟨refl⟩

instance : Trans (Emits signatures []) (Emits signatures []) (Emits signatures []) :=
  ⟨fun h₁ h₂ ↦ h₁.trans h₂⟩

end Tape.Emits

namespace Lowering

section

variable {signatures : List Signature} {env : Env}

/-- The step makes no call and adds no string constant. -/
abbrev Quiet {α : Type} (signatures : List Signature) (m : Lowering Tape α) : Prop :=
  Moves (Tape.Emits signatures []) m

theorem emit_quiet {i : Instr} (h : i.isCall = false) (kind : Kind) :
    Quiet signatures (emit i kind) := fun _ ↦
  ⟨⟨[i], rfl, by simp [MakeCalls, h]⟩, rfl⟩

/-- Only a call makes a call. -/
theorem operates_quiet (signatures : List Signature) (locals : Bindings Binding) :
    OperatesAlong locals (Tape.Emits signatures []) := by
  intro i kind _ hcall
  refine emit_quiet ?_ kind
  cases i with
  | call symbol ret args => exact absurd rfl (hcall symbol ret args)
  | _ => rfl

/-- A call comes behind its arguments. -/
theorem emits_of_call {ident : String} {args : List Expr} {result : Option Value} {t t' : Tape}
    (hargs : ∀ tys values t₁, tys.length = args.length →
      arguments env ident args tys t = (.ok values, t₁) →
      values.length = args.length ∧ t.Emits env.signatures (Expr.allParts args) t₁)
    (h : call env ident args t = (.ok result, t')) :
    t.Emits env.signatures (Expr.call ident args).parts t' := by
  obtain ⟨callee, values, t₁, hcallee, harity, harguments, hemit⟩ := call_eq_ok_iff.mp h
  obtain ⟨hlength, hemits⟩ := hargs _ values t₁ harity harguments
  obtain rfl := (Prod.mk.inj hemit).2
  rw [Expr.parts]
  exact hemits.trans ⟨⟨_, rfl, .cons (.intro hcallee hlength) .nil⟩, rfl⟩

mutual

theorem emits_expr (env : Env) : ∀ (e : Expr) {v : Value} {t t' : Tape},
    expr env e t = (.ok v, t') → t.Emits env.signatures e.parts t'
  | .number _, _, t, _, h => by
    obtain ⟨-, rfl⟩ := Prod.mk.inj h
    exact (Tape.Emits.refl t).congr rfl rfl
  | .text contents, _, t, _, h => by
    obtain ⟨-, rfl⟩ := Prod.mk.inj h
    exact ⟨⟨[], (List.append_nil _).symm, .nil⟩, rfl⟩
  | .name ident, _, _, _, h => ((readName_along (operates_quiet _ _) ident).of_eq h).congr rfl rfl
  | .call ident args, _, _, _, h =>
    emits_of_call (fun tys _ _ hlength ↦ emits_arguments env ident args tys hlength)
      (expr_call_eq_ok_iff.mp h)
  | .binary op lhs rhs, _, _, _, h => by
    obtain ⟨l, t₁, hl, r, t₂, hr, hcombine⟩ := expr_binary_eq_ok_iff.mp h
    have hquiet : t₂.Emits env.signatures [.binary op lhs rhs] _ :=
      ((combine_along (operates_quiet _ env.locals) op l r).of_eq hcombine).congr rfl rfl
    exact ((emits_expr env lhs hl).trans (emits_expr env rhs hr)).trans hquiet
termination_by structural e => e

theorem emits_arguments (env : Env) (ident : String) : ∀ (es : List Expr) (tys : List Ty)
    {values : List Value} {t t' : Tape}, tys.length = es.length →
    arguments env ident es tys t = (.ok values, t') →
    values.length = es.length ∧ t.Emits env.signatures (Expr.allParts es) t'
  | [], [], _, t, _, _, h => by
    rw [arguments_nil] at h
    obtain ⟨⟨⟩, rfl⟩ := Prod.mk.inj h
    exact ⟨rfl, .refl t⟩
  | e :: es, ty :: tys, _, _, _, hlength, h => by
    obtain ⟨value, t₁, values, hvalue, -, hvalues, rfl⟩ := arguments_cons_eq_ok_iff.mp h
    obtain ⟨hrest, hemits⟩ := emits_arguments env ident es tys (Nat.succ.inj hlength) hvalues
    exact ⟨congrArg (· + 1) hrest, (emits_expr env e hvalue).trans hemits⟩
termination_by structural es => es

end

theorem emits_call {ident : String} {args : List Expr} {result : Option Value} {t t' : Tape}
    (h : call env ident args t = (.ok result, t')) :
    t.Emits env.signatures (Expr.call ident args).parts t' :=
  emits_of_call (fun tys _ _ hlength ↦ emits_arguments env ident args tys hlength) h

theorem emits_condition {cond : Expr} {v : Value} {t t' : Tape}
    (h : condition env cond t = (.ok v, t')) : t.Emits env.signatures cond.parts t' := by
  obtain ⟨value, t₁, hvalue, -, htest⟩ := condition_eq_ok_iff.mp h
  have hquiet := (test_along (operates_quiet env.signatures env.locals) value).of_eq htest
  have hemits := (emits_expr env cond hvalue).trans hquiet
  rwa [List.append_nil] at hemits

end

end Lowering

/-! ## Statements -/

/-- What is left of expressions in the blocks of a function. -/
structure Frame.Emits (signatures : List Signature) (parts : List Expr) (fr fr' : Frame) :
    Prop where
  count_le : fr.count ≤ fr'.count
  code : ∃ placed : List (Nat × Expr), placed.map Prod.snd = Expr.callsOf parts ∧
    ∀ b, ∃ more, fr'.code b = fr.code b ++ more ∧
      MakeCalls signatures more ((placed.filter (·.1 = b)).map Prod.snd)
  symbols : fr'.symbols = fr.symbols.addTexts (Expr.textsOf parts)

namespace Frame

variable {fr : Frame} {b : Nat} {c : Value}

theorem count_fork : (fr.fork b c).count = fr.count + 2 := by simp [fork]

theorem count_forkElse : (fr.forkElse b c).count = fr.count + 3 := by simp [forkElse]

theorem count_enterLoop : (fr.enterLoop b).count = fr.count + 3 := by simp [enterLoop]

end Frame

namespace Frame.Emits

variable {signatures : List Signature} {ps qs : List Expr} {fr fr₁ fr₂ fr₃ : Frame} {b : Nat}

theorem trans (h₁ : Emits signatures ps fr₁ fr₂) (h₂ : Emits signatures qs fr₂ fr₃) :
    Emits signatures (ps ++ qs) fr₁ fr₃ := by
  obtain ⟨placed₁, hplaced₁, hcode₁⟩ := h₁.code
  obtain ⟨placed₂, hplaced₂, hcode₂⟩ := h₂.code
  refine ⟨Nat.le_trans h₁.count_le h₂.count_le, ⟨placed₁ ++ placed₂, ?_, fun b ↦ ?_⟩, ?_⟩
  · rw [List.map_append, hplaced₁, hplaced₂, Expr.callsOf_append]
  · obtain ⟨more₁, hmore₁, hcalls₁⟩ := hcode₁ b
    obtain ⟨more₂, hmore₂, hcalls₂⟩ := hcode₂ b
    refine ⟨more₁ ++ more₂, by rw [hmore₂, hmore₁, List.append_assoc], ?_⟩
    rw [List.filter_append, List.map_append]
    exact hcalls₁.append hcalls₂
  · rw [h₂.symbols, h₁.symbols, Expr.textsOf_append, Symbols.addTexts_append]

/-- Expressions may be followed by a step that leaves nothing. -/
theorem then_nil (h₁ : Emits signatures ps fr₁ fr₂) (h₂ : Emits signatures [] fr₂ fr₃) :
    Emits signatures ps fr₁ fr₃ := by
  have h := h₁.trans h₂
  rwa [List.append_nil] at h

/-- A change that appends no call and adds no string constant leaves nothing. -/
theorem of_quiet (hcount : fr₁.count ≤ fr₂.count)
    (hcode : ∀ b, ∃ more, fr₂.code b = fr₁.code b ++ more ∧ ∀ i ∈ more, i.isCall = false)
    (hsymbols : fr₂.symbols = fr₁.symbols) : Emits signatures [] fr₁ fr₂ := by
  refine ⟨hcount, ⟨[], rfl, fun b ↦ ?_⟩, hsymbols⟩
  obtain ⟨more, hmore, hquiet⟩ := hcode b
  refine ⟨more, hmore, ?_⟩
  rw [MakeCalls, List.filter_eq_nil_iff.mpr fun i hi ↦ by simp [hquiet i hi]]
  exact .nil

theorem of_code_eq (hcount : fr₁.count ≤ fr₂.count) (hcode : ∀ b, fr₂.code b = fr₁.code b)
    (hsymbols : fr₂.symbols = fr₁.symbols) : Emits signatures [] fr₁ fr₂ :=
  of_quiet hcount (fun b ↦ ⟨[], by rw [hcode b, List.append_nil], List.forall_mem_nil _⟩) hsymbols

theorem refl (fr : Frame) : Emits signatures [] fr fr :=
  of_code_eq (Nat.le_refl _) (fun _ ↦ rfl) rfl

theorem extend (b : Nat) {i : Instr} (h : i.isCall = false) :
    Emits signatures [] fr (fr.extend b [i]) := by
  refine of_quiet (Nat.le_of_eq count_extend.symm) (fun x ↦ ?_) rfl
  obtain ⟨new, hnew, hsub⟩ := exists_code_extend fr b [i] x
  exact ⟨new, hnew, fun j hj ↦ List.mem_singleton.mp (hsub j hj) ▸ h⟩

theorem child {parent : Nat} {role : Role} : Emits signatures [] fr (fr.child parent role) :=
  of_code_eq (by simp) code_child rfl

theorem declare {ident : String} {ty : Ty} : Emits signatures [] fr (fr.declare ident ty) :=
  of_code_eq (Nat.le_refl _) code_declare rfl

theorem close (fr : Frame) (b target : Nat) : Emits signatures [] fr (fr.close b target) := by
  unfold Frame.close
  split
  · exact refl fr
  · split
    · exact extend b rfl
    · exact extend b rfl

theorem fork (fr : Frame) (b : Nat) (c : Value) : Emits signatures [] fr (fr.fork b c) :=
  (child.trans child).trans (extend b rfl)

theorem forkElse (fr : Frame) (b : Nat) (c : Value) :
    Emits signatures [] fr (fr.forkElse b c) :=
  ((child.trans child).trans child).trans (extend b rfl)

theorem enterLoop (fr : Frame) (b : Nat) : Emits signatures [] fr (fr.enterLoop b) :=
  ((child.trans child).trans child).trans (extend b rfl)

theorem turn (fr : Frame) (b : Nat) (c : Value) : Emits signatures [] fr (fr.turn b c) :=
  extend b rfl

/-- What an expression leaves at the end of a block, it leaves in the function. -/
theorem withTape {t : Tape} (hb : b < fr.count) (h : (fr.tape b).Emits signatures ps t) :
    Emits signatures ps fr (fr.withTape b t) := by
  obtain ⟨more, hmore, hcalls⟩ := h.code
  refine ⟨Nat.le_of_eq count_withTape.symm, ⟨(Expr.callsOf ps).map fun e ↦ (b, e), ?_, fun x ↦ ?_⟩,
    h.symbols⟩
  · rw [List.map_map]
    exact List.map_id _
  · by_cases hx : x = b
    · subst hx
      refine ⟨more, (code_withTape hb).trans hmore, ?_⟩
      simpa [List.filter_map, Function.comp_def] using hcalls
    · refine ⟨[], by rw [code_withTape_of_ne hx, List.append_nil], ?_⟩
      have hnone : ((Expr.callsOf ps).map fun e ↦ (b, e)).filter (·.1 = x) = [] := by
        simp [List.filter_map, Function.comp_def, Ne.symm hx]
      rw [hnone]
      exact .nil

end Frame.Emits

namespace Lowering

section

variable {signatures : List Signature} {outer : Outer} {block next : Nat} {ss : List Stmt}
  {fr fr' : Frame}

theorem emits_of_assigns {ident : String} {v : Value} (h : Assigns outer block ident v fr fr') :
    fr.Emits signatures [] fr' := by
  cases h with
  | known => exact .extend block rfl
  | first => exact Frame.Emits.declare.trans (.extend block rfl)

/-- Behind a step in a block, the statements that follow there leave what they do. -/
theorem emits_goOn {ps qs : List Expr} {fr₁ : Frame} (h : fr.Emits signatures ps fr₁)
    (hblock : block < fr.count)
    (hrest : block < fr₁.count → fr₁.Emits signatures qs fr' ∧ next < fr'.count) :
    fr.Emits signatures (ps ++ qs) fr' ∧ next < fr'.count := by
  obtain ⟨hrest, hnext⟩ := hrest (Nat.lt_of_lt_of_le hblock h.count_le)
  exact ⟨h.trans hrest, hnext⟩

/-- Statements that are lowered leave what the expressions in them do. -/
theorem emits_of_lowers (h : Lowers outer ss block fr next fr') (hblock : block < fr.count) :
    fr.Emits outer.signatures (Stmt.allParts ss) fr' ∧ next < fr'.count := by
  induction h with
  | @nil block fr => exact ⟨.refl fr, hblock⟩
  | assign _ valueOk assigned _ ih =>
    have hvalue := (Frame.Emits.withTape hblock (emits_expr _ _ valueOk)).then_nil
      (emits_of_assigns assigned)
    exact emits_goOn hvalue hblock ih
  | @ret _ _ block _ v _ _ _ _ valueOk _ _ ih =>
    have hvalue := (Frame.Emits.withTape hblock (emits_expr _ _ valueOk)).then_nil
      (.extend block (i := .ret (some v)) rfl)
    exact emits_goOn hvalue hblock ih
  | @ifThen _ _ _ block bodyEnd _ c t fr fr₁ _ _ condOk _ _ ihBody ihRest =>
    have hcond := (Frame.Emits.withTape hblock (emits_condition condOk)).then_nil
      (.fork _ block c)
    have hcount : ((fr.withTape block t).fork block c).count = fr.count + 2 := by
      rw [Frame.count_fork, Frame.count_withTape]
    obtain ⟨hbody, -⟩ := ihBody (by omega)
    have hclosed := hbody.then_nil (.close fr₁ bodyEnd (fr.count + 1))
    have hbranch := hclosed.count_le
    obtain ⟨hrest, hnext⟩ := ihRest (by omega)
    exact ⟨(hcond.trans hclosed).trans hrest, hnext⟩
  | @ifElse _ _ _ _ block bodyEnd otherwiseEnd _ c t fr fr₁ fr₂ _ _ condOk _ _ _
      ihBody ihOtherwise ihRest =>
    have hcond := (Frame.Emits.withTape hblock (emits_condition condOk)).then_nil
      (.forkElse _ block c)
    have hcount : ((fr.withTape block t).forkElse block c).count = fr.count + 3 := by
      rw [Frame.count_forkElse, Frame.count_withTape]
    obtain ⟨hbody, -⟩ := ihBody (by omega)
    have hclosed := hbody.then_nil (.close fr₁ bodyEnd (fr.count + 2))
    have hbranch := hclosed.count_le
    obtain ⟨hotherwise, -⟩ := ihOtherwise (by omega)
    have hclosed' := hotherwise.then_nil (.close fr₂ otherwiseEnd (fr.count + 2))
    have hbranch' := hclosed'.count_le
    obtain ⟨hrest, hnext⟩ := ihRest (by omega)
    exact ⟨((hcond.trans hclosed).trans hclosed').trans hrest, hnext⟩
  | @loop _ _ _ block bodyEnd _ c t fr fr₁ _ _ condOk _ _ ihBody ihRest =>
    have hcount : (fr.enterLoop block).count = fr.count + 3 := Frame.count_enterLoop
    have hcond := ((Frame.Emits.enterLoop fr block).trans
      (.withTape (by omega) (emits_condition condOk))).then_nil (.turn _ fr.count c)
    have hcount' : (((fr.enterLoop block).withTape fr.count t).turn fr.count c).count =
        fr.count + 3 := by
      rw [Frame.turn, Frame.count_extend, Frame.count_withTape, hcount]
    obtain ⟨hbody, -⟩ := ihBody (by omega)
    have hclosed := hbody.then_nil (.close fr₁ bodyEnd fr.count)
    have hbranch := hclosed.count_le
    obtain ⟨hrest, hnext⟩ := ihRest (by omega)
    exact ⟨(hcond.trans hclosed).trans hrest, hnext⟩
  | call _ callOk _ ih => exact emits_goOn (.withTape hblock (emits_call callOk)) hblock ih
  | eval _ _ valueOk _ ih => exact emits_goOn (.withTape hblock (emits_expr _ _ valueOk)) hblock ih

theorem emits_of_binds {ps : List (String × Value)} (h : Binds outer block ps fr fr') :
    fr.Emits signatures [] fr' := by
  induction h with
  | nil => exact .refl _
  | cons assigned _ ih => exact (emits_of_assigns assigned).trans ih

theorem emits_of_finishes {head : Prototype} (h : Finishes head block fr fr') :
    fr.Emits signatures [] fr' := by
  cases h with
  | ended => exact .refl _
  | dead | void => exact .extend block rfl

/-- A function whose body is lowered makes the calls of the body, and the module gets the string
constants of the body. -/
theorem makes_of_lowersBody {head : Prototype} {bound lowered finished : Frame} {last : Nat}
    (h : LowersBody outer head ss fr bound last lowered finished) (hnil : fr.function.blocks = []) :
    finished.function.blocks ≠ [] ∧
      finished.function.Makes outer.signatures (Expr.callsOf (Stmt.allParts ss)) ∧
      finished.symbols = fr.symbols.addTexts (Expr.textsOf (Stmt.allParts ss)) := by
  have hbound : (fr.enter head).Emits outer.signatures [] bound := emits_of_binds h.binds
  have hentry : fr.count < bound.count :=
    Nat.lt_of_lt_of_le (Frame.count_enter ▸ Nat.lt_succ_self _) hbound.count_le
  obtain ⟨hlowered, -⟩ := emits_of_lowers h.lowers hentry
  have hall := (hbound.trans hlowered).then_nil (emits_of_finishes h.finishes)
  refine ⟨?_, ?_, hall.symbols⟩
  · have hcount := hall.count_le
    rw [Frame.count_enter] at hcount
    exact List.length_pos_iff.mp (Nat.lt_of_lt_of_le (Nat.succ_pos _) hcount)
  · obtain ⟨placed, hplaced, hcode⟩ := hall.code
    refine ⟨placed, hplaced, fun b ↦ ?_⟩
    obtain ⟨more, hmore, hcalls⟩ := hcode b
    rw [Frame.code_enter_of_nil head hnil, List.nil_append] at hmore
    obtain rfl := hmore
    exact hcalls

end

end Lowering

/-! ## Declarations -/

theorem Function.Makes.mono {signatures signatures' : List Signature} {f : Function}
    {calls : List Expr} (h : f.Makes signatures calls) (hstarts : signatures <+: signatures') :
    f.Makes signatures' calls := by
  obtain ⟨placed, hplaced, hcode⟩ := h
  exact ⟨placed, hplaced, fun b ↦ (hcode b).imp fun _ _ h ↦ h.mono hstarts⟩

namespace Context

variable {c c' : Context}

theorem Extends.signatures_prefix (h : c.Extends c') : c.signatures <+: c'.signatures := by
  refine List.prefix_iff_getElem?.mpr fun id hid ↦ ?_
  have hlt : id < c.functions.length := by simpa [signatures] using hid
  obtain ⟨f', hf', hsignature, -⟩ := h.functions id _ (List.getElem?_eq_getElem hlt)
  simp [signatures, hf', hsignature]

/-- A function that has a body is found as it is later on. -/
theorem Extends.function? {ident : String} {f : Function} (h : c.Extends c')
    (hf : c.function? ident = some f) (hblocks : f.blocks ≠ []) : c'.function? ident = some f := by
  obtain ⟨id, hid, hf⟩ := Option.bind_eq_some_iff.mp hf
  obtain ⟨f', hf', -, -, hsame⟩ := h.functions id f hf
  rw [Context.function?, h.functionId? hid, Option.bind_some, hf', hsame hblocks]

/-- The function of the name is defined, and makes the calls. -/
def Performs (c : Context) (ident : String) (calls : List Expr) : Prop :=
  ∃ f, c.function? ident = some f ∧ f.blocks ≠ [] ∧ f.Makes c.signatures calls

theorem Performs.extends {ident : String} {calls : List Expr} (h : c.Performs ident calls)
    (hextends : c.Extends c') : c'.Performs ident calls := by
  obtain ⟨f, hf, hblocks, hmakes⟩ := h
  exact ⟨f, hextends.function? hf hblocks, hblocks, hmakes.mono hextends.signatures_prefix⟩

end Context

namespace Lowering

variable {c c' : Context}

/-- What an accepted declaration leaves. -/
structure Leaves (c : Context) (d : Decl) (c' : Context) : Prop where
  texts : c'.symbols.texts.map TextConstant.contents =
    c.symbols.texts.map TextConstant.contents ++
      (Expr.textsOf (Stmt.allParts d.body)).map Symbols.storedText
  distinct : c.symbols.Distinct → c'.symbols.Distinct
  calls : ∀ head ss, d = .function head ss →
    c'.Performs head.ident (Expr.callsOf (Stmt.allParts ss))
  /-- A constant is no string literal. -/
  constant : ∀ ident value, d = .constant ident value → Expr.textsOf value.parts = []

theorem texts_of_declares {head : Prototype} {id : Nat} (h : Declares c head id c') :
    c'.symbols.texts = c.symbols.texts ∧ (c.symbols.Distinct → c'.symbols.Distinct) := by
  cases h with
  | again => exact ⟨rfl, fun hdistinct ↦ hdistinct⟩
  | first => exact ⟨rfl, fun hdistinct ↦ hdistinct.declare head⟩

theorem leaves_of_decl {d : Decl} (h : decl d c = (.ok (), c')) : Leaves c d c' := by
  have heffect := effect_decl d c
  rw [h] at heffect
  cases heffect with
  | declared _ declares =>
    obtain ⟨htexts, hdistinct⟩ := texts_of_declares declares
    exact ⟨by simp [htexts, Decl.body, Stmt.allParts], hdistinct, by simp, by simp⟩
  | @begun head ss id c₁ f _ fr headOk declares at? agrees noBody lowered =>
    obtain ⟨htexts, hdistinct⟩ := texts_of_declares declares
    obtain ⟨bound, last, loweredTo, finished, hbody, rfl⟩ := lowersBody_of_body lowered
    obtain ⟨hblocks, hmakes, hsymbols⟩ := makes_of_lowersBody hbody noBody
    have hsymbols : (c₁.withFrame id finished.leave).symbols =
        c₁.symbols.addTexts (Expr.textsOf (Stmt.allParts ss)) := hsymbols
    have hsignature : finished.leave.function.signature = f.signature :=
      ((body_moves head ss c₁.outer).of_eq lowered).signature
    refine ⟨?_, fun hc ↦ ?_, fun head' ss' heq ↦ ?_, by simp⟩
    · rw [hsymbols, Symbols.contents_addTexts, htexts]
      rfl
    · rw [hsymbols]
      exact (hdistinct hc).addTexts _
    · obtain ⟨rfl, rfl⟩ := Decl.function.inj heq
      refine ⟨_, declares.function?_withFrame at? hsignature, hblocks, ?_⟩
      rw [Context.signatures_withFrame at? hsignature]
      exact hmakes
  | @bound ident value x valueOk =>
    refine ⟨by simp [Context.bindGlobal, Decl.body, Stmt.allParts], fun hc ↦ ⟨hc.nodup, hc.used⟩,
      by simp, ?_⟩
    rintro _ _ ⟨⟩
    cases value with
    | number | name => rfl
    | text | call | binary => exact absurd (Prod.mk.inj valueOk).1 (by simp)

end Lowering

/-! ## Programs -/

/-- What declarations leave that are all accepted. -/
theorem Accepts.leaves {c c' : Context} {ds : List Decl} (h : Accepts c ds c') :
    c'.symbols.texts.map TextConstant.contents =
        c.symbols.texts.map TextConstant.contents ++
          (Expr.textsOf (Stmt.allParts (ds.flatMap Decl.body))).map Symbols.storedText ∧
      (c.symbols.Distinct → c'.symbols.Distinct) ∧
      ∀ d ∈ ds, (∀ head ss, d = .function head ss →
          c'.Performs head.ident (Expr.callsOf (Stmt.allParts ss))) ∧
        Expr.textsOf d.parts = Expr.textsOf (Stmt.allParts d.body) := by
  induction h with
  | nil => exact ⟨by simp [Stmt.allParts], fun hdistinct ↦ hdistinct, nofun⟩
  | @cons c c₁ c' d ds accepted rest ih =>
    obtain ⟨htexts, hdistinct, hrest⟩ := ih
    have hleaves := Lowering.leaves_of_decl accepted
    have hextends : c₁.Extends c' := rest.moves Lowering.decl_extends
    refine ⟨?_, fun hc ↦ hdistinct (hleaves.distinct hc),
      List.forall_mem_cons.mpr ⟨⟨?_, ?_⟩, hrest⟩⟩
    · rw [htexts, hleaves.texts, List.flatMap_cons, Stmt.allParts_append, Expr.textsOf_append,
        List.map_append, List.append_assoc]
    · exact fun head ss heq ↦ (hleaves.calls head ss heq).extends hextends
    · cases d with
      | function | external => rfl
      | constant ident value => exact hleaves.constant ident value rfl

/-- Declarations whose string literals stand in bodies have those of their bodies. -/
theorem Decl.texts_flatMap {ds : List Decl}
    (h : ∀ d ∈ ds, Expr.textsOf d.parts = Expr.textsOf (Stmt.allParts d.body)) :
    (ds.flatMap fun d ↦ Expr.textsOf d.parts) =
      Expr.textsOf (Stmt.allParts (ds.flatMap Decl.body)) := by
  induction ds with
  | nil => simp [Stmt.allParts]
  | cons d ds ih =>
    obtain ⟨hd, hds⟩ := List.forall_mem_cons.mp h
    rw [List.flatMap_cons, List.flatMap_cons, Stmt.allParts_append, Expr.textsOf_append, hd, ih hds]

/-- A function that has a body is the one that a definition names. -/
theorem Context.function?_of_mem {ds : List Decl} {f : Function} (hparsed : ∀ d ∈ ds, d.Parsed)
    (hf : f ∈ (after ds).functions) (hblocks : f.blocks ≠ []) :
    ∃ head ss, .function head ss ∈ ds ∧ (after ds).function? head.ident = some f := by
  obtain ⟨i, d, hd, head, ss, _, _, _, rfl, hident, -⟩ :=
    hasBody_after_iff.mp ⟨f, hf, rfl, hblocks⟩
  refine ⟨head, ss, List.mem_of_getElem? hd, ?_⟩
  obtain ⟨id, hid⟩ := List.getElem?_of_mem hf
  have hregisters := registers_after hparsed
  have hfound : (after ds).functionId? head.ident = some id := by
    rw [hregisters.functionId?_eq_some_iff, ← List.getElem?_map, ← hregisters.ident_eq,
      List.getElem?_map, hid]
    exact congrArg some hident.symm
  rw [Context.function?, hfound, Option.bind_some, hid]

/-- A text that compiles is parsed as a whole, and the run accepts what the parser yields. -/
theorem accepts_of_compile {source : String} (h : (compile source).outcome = .ok ()) :
    ∃ ds, (Parse.program (Token.ofSource source)).result = .ok ds ∧ (∀ d ∈ ds, d.Parsed) ∧
      Accepts .empty ds (compile source).context := by
  have hphases := twoPhase_compile source
  have hparsed := Parse.parsed_of_mem_declarations (List.suffix_refl (Token.ofSource source))
  generalize hdeclarations : Parse.declarations (Token.ofSource source) = r at hphases hparsed
  generalize compile source = run at h hphases
  obtain ⟨ds, stop⟩ := r
  cases hphases with
  | refused => exact nomatch h
  | accepted accepted =>
    cases stop with
    | some => exact nomatch h
    | none =>
      exact ⟨ds, Parse.declarations_eq_iff.mp hdeclarations, hparsed, Accepts.iff_forM.mpr accepted⟩

/-- No string literal and no call of a program that compiles is lost, made twice or moved. The
string constants of its module are the string literals of the source text in their order, each cut
at its first NUL and each with a name of its own, and all of them stand in bodies. A function
that is defined makes the calls of the body that defines it, and no other function has a body. -/
theorem literals_and_calls_kept {source : String} (h : (compile source).outcome = .ok ()) :
    let c := (compile source).context
    ∃ ds, (Parse.program (Token.ofSource source)).result = .ok ds ∧
      let literals := Expr.textsOf (Stmt.allParts (ds.flatMap Decl.body))
      (Token.ofSource source).filterMap Token.text? = literals ∧
      c.symbols.texts.map TextConstant.contents = literals.map Symbols.storedText ∧
      (c.symbols.texts.map TextConstant.symbol).Nodup ∧
      (∀ head ss, .function head ss ∈ ds →
        c.Performs head.ident (Expr.callsOf (Stmt.allParts ss))) ∧
      ∀ f ∈ c.functions, f.blocks ≠ [] →
        ∃ head ss, .function head ss ∈ ds ∧ c.function? head.ident = some f := by
  intro c
  obtain ⟨ds, hprogram, hparsed, haccepts⟩ := accepts_of_compile h
  obtain ⟨htexts, hdistinct, hleaves⟩ := haccepts.leaves
  have hgrammar : Grammar.IsProgram Grammar.InOrder (Token.ofSource source) ds :=
    Parse.program_sound (fun _ _ _ h ↦ h.inOrder) _ hprogram
  have hcontext : c = Context.after ds := haccepts.eq_foldl
  refine ⟨ds, hprogram, ?_, htexts, (hdistinct ⟨List.nodup_nil, nofun⟩).nodup,
    fun head ss hmem ↦ (hleaves _ hmem).1 head ss rfl, fun f hf hblocks ↦ ?_⟩
  · rw [Grammar.texts_of_isProgram hgrammar, Decl.texts_flatMap fun d hd ↦ (hleaves d hd).2]
  · rw [hcontext] at hf ⊢
    exact Context.function?_of_mem hparsed hf hblocks

/-- The same literal stands in both branches and, with a NUL behind it, in a loop, and there are
three constants. The conditions and the branches make their calls in blocks of their own, and a call
that is an argument comes in front of the call that it is passed to. -/
theorem literals_and_calls_kept_nested :
    let source := "extern void p(string s); extern double d(double x);" ++
      "def double f(double x) \x7b if d(x) \x7b p(\"a\"); \x7d else \x7b p(\"a\"); \x7d" ++
      "while d(d(x)) \x7b set x = d(x); p(\"a\x00b\"); \x7d return x; \x7d"
    let dx : Expr := .call "d" [.name "x"]
    (compile source).context.symbols.texts.map TextConstant.contents = ["a", "a", "a"] ∧
      ((compile source).context.symbols.texts.map TextConstant.symbol).Nodup ∧
      (compile source).context.Performs "f" [dx, .call "p" [.text "a"], .call "p" [.text "a"], dx,
        .call "d" [dx], dx, .call "p" [.text "a\x00b"]] := by
  intro source dx
  obtain ⟨ds, hprogram, -, htexts, hnodup, hperforms, -⟩ :=
    @literals_and_calls_kept source (Lowering.eq_ok_of_isOk (by decide +kernel))
  have hds : (Parse.program (Token.ofSource source)).result = .ok
      [.external ⟨.void, "p", [⟨.string, "s"⟩]⟩, .external ⟨.double, "d", [⟨.double, "x"⟩]⟩,
        .function ⟨.double, "f", [⟨.double, "x"⟩]⟩
          [.ifElse dx [.eval (.call "p" [.text "a"])] [.eval (.call "p" [.text "a"])],
            .loop (.call "d" [dx]) [.assign "x" dx, .eval (.call "p" [.text "a\x00b"])],
            .ret (.name "x")]] := by
    decide +kernel
  obtain rfl := Except.ok.inj (hprogram.symm.trans hds)
  exact ⟨htexts.trans (by decide +kernel), hnodup, hperforms _ _ (.tail _ (.tail _ (.head _)))⟩

end BlockCompiler
