import BlockCompiler.Proofs.Agreement
import BlockCompiler.Proofs.Parsing
import BlockCompiler.Proofs.Scoping

/-!
# Declarations that lowering accepts

The checker and lowering come to the same outcome for every sequence of declarations that a parser
makes, going on after errors (`outcomes_eq`). A refused body leaves a half-built function behind;
all that counts of it later is that it has a body.

## The name `str`

The module gives unique names to its functions and string constants. A return is checked against the
function with the name that the module gave to the function, and this is the name in the program
unless it was taken. String constants take the name `str`, and names with a dot that no program can
write; so the agreement holds for programs without a function of the name `str`.
-/

namespace BlockCompiler

/-! ## Bodies -/

namespace Lowering

variable {outer : Outer} {k : Checker} {head : Prototype} {types : Bindings Ty} {flow : Flow}
  {block : Nat} {fr : Frame}

theorem bindParams_agrees (ps : List Param) (vs : List Value)
    (hvs : ∀ (i : Nat) p, ps[i]? = some p → ∃ v, vs[i]? = some v ∧ v.Fits p.ty)
    (h : fr.At outer k head block types flow) (hstraight : Straight (fr.code block)) :
    Agrees (fun types' _ fr' ↦ fr'.At outer k head block types' flow) (k.bindParams types ps)
      (bindParams outer block ((ps.map Param.ident).zip vs) fr) := by
  induction ps generalizing vs types fr with
  | nil => exact h
  | cons p ps ih =>
    obtain ⟨v, hv, hfits⟩ := hvs 0 p rfl
    obtain ⟨rest, rfl⟩ : ∃ rest, vs = v :: rest := by
      cases vs with
      | nil => exact absurd hv (by simp)
      | cons u rest => exact ⟨rest, by rw [Option.some.inj hv]⟩
    refine (assign_agrees h hstraight hfits).bind fun types' _ fr' _ hassign ↦ ?_
    exact ih rest (fun i q hq ↦ hvs (i + 1) q hq) hassign.1 hassign.2

theorem finish_agrees (h : fr.At outer k head block types flow) :
    Agrees (fun _ _ _ ↦ True)
      (Checker.ensure (flow = .live → head.ret = .void) (.missingReturn head.ident))
      ((do finish head block; clearLocals) fr) := by
  rw [finish, bind_assoc, bind_state_apply, ← h.stands.flow,
    ← bind_pure_unit (x := Checker.ensure _ _)]
  unfold Frame.flow
  split
  · exact trivial
  · split
    · exact trivial
    · simp only [true_implies, bind_assoc]
      exact Agrees.require Iff.rfl fun _ ↦ trivial

/-- The parameters have the types of the head, if all of them can be passed. -/
theorem fits_paramValues {f : Function} (hparams : f.params.map Param.ty = head.params.map Param.ty)
    (hstorable : ∀ p ∈ head.params, p.ty.isStorable = true) (i : Nat) (p : Param)
    (hp : head.params[i]? = some p) : ∃ v, f.paramValues[i]? = some v ∧ v.Fits p.ty := by
  have hty := congrArg (·[i]?) hparams
  simp only [List.getElem?_map, hp, Option.map_some] at hty
  obtain ⟨q, hq, hqty⟩ := Option.map_eq_some_iff.mp hty
  refine ⟨.param i q.ty.kind, ?_, hstorable p (List.mem_of_getElem? hp), by rw [← hqty]; rfl⟩
  rw [Function.paramValues, List.getElem?_map, List.getElem?_zipIdx, hq]
  simp

theorem body_agrees {ss : List Stmt} (hblocks : fr.function.blocks = [])
    (henv : ∀ locals types, Typed locals types →
      Env.Agrees ⟨outer.signatures, outer.globals, locals⟩ k types)
    (hsymbol : fr.function.signature.symbol = head.ident)
    (hret : declaredRet outer fr = some head.ret)
    (hparams : fr.function.params.map Param.ty = head.params.map Param.ty)
    (hstorable : ∀ p ∈ head.params, p.ty.isStorable = true) :
    Agrees (fun _ _ _ ↦ True) (k.body head ss) (body head ss outer fr) := by
  have hcount : fr.count = 0 := List.length_eq_zero_iff.mpr hblocks
  have hempty := Frame.code_enter_of_nil head hblocks
  have hknown : (fr.enter head).Known outer k head fun _ ↦ none :=
    ⟨henv _ _ fun _ ↦ rfl, hsymbol, hret⟩
  have hat : (fr.enter head).At outer k head fr.count (fun _ ↦ none) .live :=
    ⟨hcount ▸ .entry (by simp) hempty, hknown⟩
  rw [body_apply, Checker.body]
  refine (bindParams_agrees head.params _ (fits_paramValues ?_ hstorable) hat
    (by rw [hempty]; exact straight_nil)).bind fun types' _ fr₁ _ h₁ ↦
    (stmts_agrees ss h₁).bind fun p last fr₂ _ h₂ ↦ finish_agrees h₂
  exact (Function.map_ty_nameParams fr.function head).trans hparams

end Lowering

/-! ## Contexts -/

/-- What a checker knows of a function. -/
def Declared.ofFunction (f : Function) : Declared :=
  ⟨f.signature.ident, f.signature.params, f.signature.ret, f.blocks ≠ []⟩

/-- The checker knows of the module what matters for its declarations. -/
structure Context.Known (c : Context) (k : Checker) : Prop where
  functions : k.functions = c.functions.map Declared.ofFunction
  symbols : ∀ f ∈ c.functions, f.signature.symbol = f.signature.ident
  params : ∀ f ∈ c.functions, f.params.map Param.ty = f.signature.params
  names : ∀ n ∈ c.symbols.names.used, IsTextSymbol n ∨ ∃ s ∈ c.signatures, s.ident = n
  constants : ∀ ident, (c.scopes.get? .global ident).isSome ↔ ident ∈ k.constants
  numeric : c.Numeric

/-- A head as it stands in a program. -/
structure Prototype.Plain (head : Prototype) : Prop where
  ident : ¬IsTextSymbol head.ident
  params : ∀ p ∈ head.params, p.ty.isStorable = true

/-- The two outcomes are the same, and the two states are related. -/
def Same {α σ τ : Type} (R : σ → τ → Prop) (o : Except LoweringError α × σ)
    (o' : Except LoweringError α × τ) : Prop :=
  o.1 = o'.1 ∧ R o.2 o'.2

namespace Context

variable {c : Context} {k : Checker} {head : Prototype} {id : Nat} {f : Function}

theorem known_empty : Context.empty.Known .empty where
  functions := rfl
  symbols := nofun
  params := nofun
  names := nofun
  constants _ := by simp [ScopeTable.get?_empty, Context.empty, Checker.empty]
  numeric := numeric_empty

theorem Known.functionId? (h : c.Known k) (ident : String) :
    k.functions.findIdx? (·.ident = ident) = c.functionId? ident := by
  rw [h.functions, List.findIdx?_map]
  rfl

theorem Known.getElem? (h : c.Known k) (hf : c.functions[id]? = some f) :
    k.functions[id]? = some (.ofFunction f) := by
  rw [h.functions, List.getElem?_map, hf, Option.map_some]

/-- Calls are checked against the same types. -/
theorem find?_of_map_eq {ss : List Signature} {ds : List Declared}
    (h : ss.map (fun s ↦ (s.ident, s.params, s.ret)) = ds.map fun d ↦ (d.ident, d.params, d.ret))
    (ident : String) :
    (ss.find? (·.ident = ident)).map (fun s ↦ (s.params, s.ret)) =
      (ds.find? (·.ident = ident)).map fun d ↦ (d.params, d.ret) := by
  have hfind := congrArg (fun l ↦ (l.find? (·.1 = ident)).map Prod.snd) h
  simp only [List.find?_map, Option.map_map] at hfind
  exact hfind

theorem Known.declare (h : c.Known k) (hplain : head.Plain)
    (hunknown : c.functionId? head.ident = none) :
    (c.declare head).Known { k with
      functions := k.functions ++ [⟨head.ident, head.params.map Param.ty, head.ret, false⟩] } := by
  -- The names in use are those of string constants and of declared functions.
  have hfree : head.ident ∉ c.symbols.names.used := by
    intro hmem
    rcases h.names head.ident hmem with htext | ⟨s, hs, hident⟩
    · exact hplain.ident htext
    · rw [functionId?_eq] at hunknown
      exact absurd hident (by simpa using List.findIdx?_eq_none_iff.mp hunknown s hs)
  have hadd : c.symbols.names.add "." head.ident =
      (head.ident, { c.symbols.names with used := head.ident :: c.symbols.names.used }) :=
    if_neg hfree
  have hparams : (Function.declared head head.ident).params.map Param.ty =
      head.params.map Param.ty := by
    rw [Function.declared, Function.map_ty_nameParams, List.map_map,
      List.filter_eq_self.mpr hplain.params]
    rfl
  refine ⟨?_, fun f hf ↦ ?_, fun f hf ↦ ?_, fun n hn ↦ ?_, h.constants, h.numeric⟩
  · rw [Context.declare, hadd, List.map_append, h.functions]
    rfl
  · rw [Context.declare, hadd] at hf
    rcases List.mem_append.mp hf with hf | hf
    · exact h.symbols f hf
    · rw [List.mem_singleton.mp hf]
      rfl
  · rw [Context.declare, hadd] at hf
    rcases List.mem_append.mp hf with hf | hf
    · exact h.params f hf
    · rw [List.mem_singleton.mp hf]
      exact hparams
  · rw [Context.declare, hadd] at hn
    rw [signatures, Context.declare, hadd, List.map_append]
    rcases List.mem_cons.mp hn with rfl | hn
    · exact .inr ⟨_, List.mem_append_right _ (List.mem_singleton_self _), rfl⟩
    · refine (h.names n hn).imp_right ?_
      rintro ⟨s, hs, hident⟩
      exact ⟨s, List.mem_append_left _ hs, hident⟩

/-- Once the lowering of a body was begun, its function has a body. -/
theorem Known.withFrame {fr : Frame} (h : c.Known k) (hf : c.functions[id]? = some f)
    (hextends : (c.frame id f).Extends fr) (hentry : fr.function.blocks ≠ []) :
    (c.withFrame id fr).Known (k.beginBody id) := by
  have hmem : f ∈ c.functions := List.mem_of_getElem? hf
  refine ⟨?_, fun g hg ↦ ?_, fun g hg ↦ ?_, fun n hn ↦ ?_, fun ident ↦ ?_, h.numeric.withFrame⟩
  · apply List.ext_getElem?
    intro i
    rw [Checker.beginBody, h.functions, List.getElem?_modify, List.getElem?_map, List.getElem?_map]
    by_cases hi : id = i
    · subst hi
      rw [hf, getElem?_withFrame hf]
      simp [Declared.ofFunction, hextends.signature, frame, hentry]
    · rw [getElem?_withFrame_of_ne (Ne.symm hi)]
      simp [hi]
  · rcases List.mem_or_eq_of_mem_set hg with hg | rfl
    · exact h.symbols g hg
    · rw [hextends.signature]
      exact h.symbols f hmem
  · rcases List.mem_or_eq_of_mem_set hg with hg | rfl
    · exact h.params g hg
    · rw [hextends.signature, hextends.params]
      exact h.params f hmem
  · rw [signatures_withFrame hf hextends.signature]
    rcases hextends.symbols.fresh n hn with hn | hn
    · exact h.names n hn
    · exact .inl hn
  · rw [globals_withFrame]
    exact h.constants ident

theorem Known.bindGlobal {ident : String} {v : Value} (h : c.Known k)
    (hv : (∃ x, v = .number x) ∨ ∃ ident b, c.scopes.get? .global ident = some b ∧ v = b.value) :
    (c.bindGlobal ident v).Known { k with constants := ident :: k.constants } := by
  refine ⟨h.functions, h.symbols, h.params, h.names, fun x ↦ ?_, h.numeric.bindGlobal hv⟩
  rw [Context.bindGlobal, ScopeTable.get?_bind]
  by_cases hx : x = ident
  · simp [hx]
  · simp [hx, h.constants x]

/-- A body is checked while its own function counts as having one. -/
theorem map_beginBody (k : Checker) (id : Nat) :
    (k.beginBody id).functions.map (fun d ↦ (d.ident, d.params, d.ret)) =
      k.functions.map fun d ↦ (d.ident, d.params, d.ret) := by
  apply List.ext_getElem?
  intro i
  simp only [Checker.beginBody, List.getElem?_map, List.getElem?_modify]
  cases k.functions[i]? with
  | none => rfl
  | some d => by_cases hi : id = i <;> simp [hi]

theorem Known.env (h : c.Known k) {locals : Bindings Binding} {types : Bindings Ty}
    (htyped : Typed locals types) :
    Env.Agrees ⟨c.outer.signatures, c.outer.globals, locals⟩ (k.beginBody id) types where
  functions := by
    refine find?_of_map_eq ?_
    rw [map_beginBody, h.functions, outer, signatures, List.map_map, List.map_map]
    rfl
  constants := h.constants
  numeric := h.numeric
  locals := htyped

theorem find?_of_functionId? {ident : String} (h : c.functionId? ident = some id)
    (hf : c.functions[id]? = some f) : c.signatures.find? (·.ident = ident) = some f.signature := by
  obtain ⟨hlt, hident, hfirst⟩ := List.findIdx?_eq_some_iff_getElem.mp h
  obtain ⟨_, rfl⟩ := List.getElem?_eq_some_iff.mp hf
  have hfind : c.functions.find? (·.signature.ident = ident) = some c.functions[id] :=
    List.find?_eq_some_iff_getElem.mpr
      ⟨hident, id, hlt, rfl, fun j hj ↦ by simpa using hfirst j hj⟩
  rw [signatures, List.find?_map]
  exact congrArg (Option.map Function.signature) hfind

end Context

/-! ## Declarations -/

/-- With the names already seen in front of the list, what is found is the first name that stands
in front of its place. -/
theorem firstRepeated?_of_mem_iff {seen front idents : List String}
    (h : ∀ ident, ident ∈ seen ↔ ident ∈ front) :
    firstRepeated? seen idents =
      ((idents.zipIdx front.length).find? fun (ident, place) ↦
        ident ∈ (front ++ idents).take place).map Prod.fst := by
  induction idents generalizing seen front with
  | nil => rfl
  | cons x idents ih =>
    rw [firstRepeated?, List.zipIdx_cons, List.find?_cons]
    by_cases hx : x ∈ seen
    · simp [hx, (h x).mp hx]
    · have hfront : x ∉ front := mt (h x).mpr hx
      have hseen : ∀ ident, ident ∈ x :: seen ↔ ident ∈ front ++ [x] := by simp [h, or_comm]
      simp [hx, hfront, ih hseen]

/-- Lowering and the checker report the same name of a head that has one twice. -/
theorem firstRepeated?_eq_repeated? (idents : List String) :
    firstRepeated? [] idents = Checker.repeated? idents :=
  @firstRepeated?_of_mem_iff [] [] idents fun _ ↦ Iff.rfl

namespace Lowering

variable {c : Context} {k : Checker} {head : Prototype}

theorem declare_same (h : c.Known k) (hplain : head.Plain) :
    Same Context.Known (declare head c) (Checker.declare head k) := by
  unfold declare Checker.declare
  rw [firstRepeated?_eq_repeated?]
  cases Checker.repeated? (head.params.map Param.ident) with
  | some ident => exact ⟨rfl, h⟩
  | none =>
    simp only [bind_state_apply, h.functionId?]
    cases hid : c.functionId? head.ident with
    | none =>
      have hlength : k.functions.length = c.functions.length := by rw [h.functions, List.length_map]
      exact ⟨congrArg Except.ok hlength.symm, h.declare hplain hid⟩
    | some id =>
      obtain ⟨f, hf, -⟩ := Context.getElem?_of_functionId? hid
      have hsignature : c.signatures[id]? = some f.signature := by
        rw [Context.signatures, List.getElem?_map, hf, Option.map_some]
      simp only [bind_require_apply, hsignature, h.getElem? hf, Option.any_some,
        Declared.ofFunction]
      split
      · exact ⟨rfl, h⟩
      · exact ⟨rfl, h⟩

theorem eq_of_agrees {σ : Type} {r : Except LoweringError Unit}
    {o : Except LoweringError Unit × σ} (h : Agrees (fun _ _ _ ↦ True) r o) : o.1 = r := by
  rcases r with e | ⟨⟩ <;> rcases o with ⟨e' | ⟨⟩, s⟩
  · exact congrArg Except.error (Eq.symm h)
  · exact h.elim
  · exact h.elim
  · rfl

theorem body_same {id : Nat} {f : Function} {ss : List Stmt} (h : c.Known k) (hplain : head.Plain)
    (hid : c.functionId? head.ident = some id) (hf : c.functions[id]? = some f)
    (hmatches : f.Matches head) (hblocks : f.blocks = []) :
    (body head ss c.outer (c.frame id f)).1 = (k.beginBody id).body head ss ∧
      (c.withFrame id (body head ss c.outer (c.frame id f)).2).Known (k.beginBody id) := by
  have hmem : f ∈ c.functions := List.mem_of_getElem? hf
  have hsymbol : f.signature.symbol = head.ident := (h.symbols f hmem).trans hmatches.ident
  have hret : declaredRet c.outer (c.frame id f) = some head.ret := by
    change (c.signatures.find? (·.ident = f.signature.symbol)).map Signature.ret = _
    rw [hsymbol, Context.find?_of_functionId? hid hf, Option.map_some, hmatches.ret]
  -- The entry is there even if the body is refused at its first statement.
  have hentry : (body head ss c.outer (c.frame id f)).2.function.blocks ≠ [] := by
    intro hnil
    have hcount := (body_extends_enter head ss c.outer (c.frame id f)).count_le
    rw [Frame.count_enter, Frame.count, Frame.count, hnil] at hcount
    exact Nat.not_succ_le_zero _ hcount
  exact ⟨eq_of_agrees (body_agrees hblocks (fun _ _ ↦ h.env) hsymbol hret
      ((h.params f hmem).trans hmatches.params) hplain.params),
    h.withFrame hf (body_moves head ss c.outer (c.frame id f)) hentry⟩

theorem define_same (h : c.Known k) (hplain : head.Plain) (ss : List Stmt) :
    Same Context.Known (define head ss c) (Checker.decl (.function head ss) k) := by
  have hdeclare := declare_same h hplain
  rw [Checker.decl]
  rcases define_apply head ss c with ⟨e, he, heq⟩ | ⟨id, c₁, f, hok, hdeclares, hf, hmatches, heq⟩
  · rw [heq]
    rw [he] at hdeclare
    rcases hrun : Checker.declare head k with ⟨e' | id, k₁⟩
    · rw [hrun] at hdeclare
      rw [bind_apply, hrun]
      exact ⟨congrArg Except.error (Except.error.inj hdeclare.1), hdeclare.2⟩
    · rw [hrun] at hdeclare
      exact absurd hdeclare.1 (by simp)
  · rw [heq]
    rw [hok] at hdeclare
    rcases hrun : Checker.declare head k with ⟨e' | id', k₁⟩
    · rw [hrun] at hdeclare
      exact absurd hdeclare.1 (by simp)
    · rw [hrun] at hdeclare
      obtain rfl := Except.ok.inj hdeclare.1
      have hknown : c₁.Known k₁ := hdeclare.2
      rw [bind_apply, hrun]
      simp only [bind_state_apply, bind_require_apply, hknown.getElem? hf, Option.any_some,
        Declared.ofFunction]
      by_cases hblocks : f.blocks = []
      · rw [if_pos hblocks, if_pos (by simp [hblocks])]
        exact body_same hknown hplain hdeclares.functionId? hf hmatches hblocks
      · rw [if_neg hblocks, if_neg (by simp [hblocks])]
        exact ⟨rfl, hknown⟩

theorem constant_agrees (h : c.Known k) (value : Expr) :
    Agrees (fun _ v _ ↦ ∃ x, v = .number x) (k.constant value)
      (constant (c.scopes.get? .global) value c) := by
  cases value with
  | number x => exact ⟨x, rfl⟩
  | name ident =>
    have hconstant := h.constants ident
    rw [constant, Checker.constant, Checker.ensure]
    cases hglobal : c.scopes.get? .global ident with
    | none =>
      rw [if_neg (by simpa [hglobal] using hconstant)]
      exact rfl
    | some b =>
      rw [if_pos (by simpa [hglobal] using hconstant)]
      exact h.numeric ident b hglobal
  | text | call | binary => exact rfl

theorem defineConstant_same (h : c.Known k) (ident : String) (value : Expr) :
    Same Context.Known (defineConstant ident value c) (Checker.decl (.constant ident value) k) := by
  have hagrees := constant_agrees h value
  rw [Checker.decl, bind_apply, Checker.check]
  rcases defineConstant_apply ident value c with ⟨e, he, heq⟩ | ⟨v, hv, hconstant, heq⟩
  · rw [heq]
    rw [he] at hagrees
    rcases hcheck : k.constant value with e' | ⟨⟩
    · rw [hcheck] at hagrees
      exact ⟨congrArg Except.error (Eq.symm hagrees), h⟩
    · rw [hcheck] at hagrees
      exact hagrees.elim
  · rw [heq]
    rw [hv] at hagrees
    rcases hcheck : k.constant value with e' | ⟨⟩
    · rw [hcheck] at hagrees
      exact hagrees.elim
    · rw [hcheck] at hagrees
      obtain ⟨x, rfl⟩ := hagrees
      exact ⟨rfl, h.bindGlobal hconstant⟩

/-- One declaration comes to the same outcome, and the checker goes on to know what matters. -/
theorem decl_same (h : c.Known k) {d : Decl} (hplain : ∀ head, d.head? = some head → head.Plain) :
    Same Context.Known (decl d c) (Checker.decl d k) := by
  cases d with
  | function head ss => exact define_same h (hplain head rfl) ss
  | external head =>
    have hdeclare := declare_same h (hplain head rfl)
    rw [decl, Checker.decl, bind_apply, bind_apply]
    generalize declare head c = o at hdeclare ⊢
    generalize Checker.declare head k = o' at hdeclare ⊢
    rcases o with ⟨e | id, c₁⟩ <;> rcases o' with ⟨e' | id', k₁⟩
    · exact ⟨congrArg Except.error (Except.error.inj hdeclare.1), hdeclare.2⟩
    · exact absurd hdeclare.1 (by simp)
    · exact absurd hdeclare.1 (by simp)
    · exact ⟨rfl, hdeclare.2⟩
  | constant ident value => exact defineConstant_same h ident value

end Lowering

/-! ## Sequences of declarations -/

theorem plain_of_parsed {d : Decl} {head : Prototype} (h : d.Parsed) (hhead : d.head? = some head)
    (hname : head.ident ≠ "str") : head.Plain := by
  obtain ⟨hword, hparams, -⟩ := h.head hhead
  refine ⟨?_, hparams⟩
  rintro (htext | ⟨n, htext⟩)
  · exact hname htext
  · have hdot : '.' ∈ head.ident.toList := by
      rw [htext, NameTable.numbered]
      simp
    exact absurd (hword '.' hdot) (by decide)

theorem outcomes_eq_of_known (ds : List Decl) : ∀ {c : Context} {k : Checker}, c.Known k →
    (∀ d ∈ ds, ∀ head, d.head? = some head → head.Plain) → c.outcomes ds = k.outcomes ds := by
  induction ds with
  | nil => intro _ _ _ _; rfl
  | cons d ds ih =>
    intro c k h hplain
    obtain ⟨heq, hknown⟩ := Lowering.decl_same h (hplain d List.mem_cons_self)
    rw [Context.outcomes, Checker.outcomes, heq,
      ih hknown fun d' hd' ↦ hplain d' (List.mem_cons_of_mem d hd')]

/-- Declarations that a parser makes, none of them of a function `str`, come to the same outcomes
whether they are lowered or checked. -/
theorem outcomes_eq (ds : List Decl) (hparsed : ∀ d ∈ ds, d.Parsed)
    (hname : ∀ d ∈ ds, ∀ head, d.head? = some head → head.ident ≠ "str") :
    Context.empty.outcomes ds = Checker.empty.outcomes ds :=
  outcomes_eq_of_known ds Context.known_empty fun d hd head hhead ↦
    plain_of_parsed (hparsed d hd) hhead (hname d hd head hhead)

/-- A body that is refused at its end counts as the body of its function. -/
theorem outcomes_refused_body :
    Context.empty.outcomes
      [.function ⟨.string, "f", []⟩ [.assign "x" (.text "a")],
        .function ⟨.string, "f", []⟩ [.ret (.text "a")]] =
      [.error (.missingReturn "f"), .error (.alreadyDefined "f")] := by
  refine (outcomes_eq _ ?_ ?_).trans rfl
  · simp only [List.forall_mem_cons]
    exact ⟨parsed_of_first "def string f() \x7b set x = \"a\"; \x7d" (by decide +kernel),
      parsed_of_first "def string f() \x7b return \"a\"; \x7d" (by decide +kernel),
      nofun⟩
  · simp only [List.forall_mem_cons]
    refine ⟨?_, ?_, nofun⟩ <;> rintro _ ⟨⟩ <;> decide

end BlockCompiler
