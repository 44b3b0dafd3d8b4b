import BlockCompiler.Proofs.Extension

/-!
# Declarations

What the lowering of one declaration does to a context, whatever its outcome: it may declare a
function, it may lower a body in the frame of a function that has none yet, and it may bind a global
constant. A relation between contexts that holds of these three changes holds of every declaration
(`Lowering.decl_moves`), and what every declaration keeps holds of every context that declarations
lead to (`Context.after_induction`), however many of them were refused on the way.
-/

namespace BlockCompiler

/-! ## Changes of a context -/

namespace Context

def function? (c : Context) (ident : String) : Option Function :=
  (c.functionId? ident).bind (c.functions[·]?)

/-- The context with a function declared. -/
def declare (c : Context) (head : Prototype) : Context :=
  { c with
    functions := c.functions ++ [Function.declared head (c.symbols.names.add "." head.ident).1]
    symbols := { c.symbols with names := (c.symbols.names.add "." head.ident).2 } }

def frame (c : Context) (id : Nat) (f : Function) : Frame :=
  ⟨f, c.scopes.get? (.function id), c.symbols⟩

/-- The context after a step in the frame of a function. -/
def withFrame (c : Context) (id : Nat) (fr : Frame) : Context where
  functions := c.functions.set id fr.function
  symbols := fr.symbols
  scopes := c.scopes.replace (.function id) fr.locals

/-- The context with a global constant bound. -/
def bindGlobal (c : Context) (ident : String) (v : Value) : Context :=
  { c with scopes := c.scopes.bind .global ident ⟨v, v.ty⟩ }

variable {c : Context} {ident : String} {id : Nat} {f : Function} {fr : Frame}

theorem functionId?_eq (c : Context) (ident : String) :
    c.functionId? ident = c.signatures.findIdx? (·.ident = ident) := by
  rw [functionId?, signatures, List.findIdx?_map]
  rfl

theorem functionId?_eq_none_iff :
    c.functionId? ident = none ↔ ident ∉ c.signatures.map Signature.ident := by
  rw [functionId?_eq, List.findIdx?_eq_none_iff]
  simp only [List.mem_map, not_exists, not_and, decide_eq_false_iff_not]

theorem getElem?_of_functionId? (h : c.functionId? ident = some id) :
    ∃ f, c.functions[id]? = some f ∧ f.signature.ident = ident := by
  obtain ⟨hlt, hident, -⟩ := List.findIdx?_eq_some_iff_getElem.mp h
  exact ⟨c.functions[id], List.getElem?_eq_getElem hlt, by simpa using hident⟩

theorem signatures_declare (c : Context) (head : Prototype) :
    (c.declare head).signatures = c.signatures ++
      [⟨head.ident, (c.symbols.names.add "." head.ident).1, head.params.map Param.ty,
        head.ret⟩] := by
  rw [signatures, declare, List.map_append, List.map_singleton, signatures]
  rfl

theorem signatures_withFrame (hf : c.functions[id]? = some f)
    (h : fr.function.signature = f.signature) : (c.withFrame id fr).signatures = c.signatures := by
  obtain ⟨hlt, rfl⟩ := List.getElem?_eq_some_iff.mp hf
  rw [signatures, withFrame, List.map_set, h, ← List.map_set, List.set_getElem_self, signatures]

theorem functionId?_withFrame (hf : c.functions[id]? = some f)
    (h : fr.function.signature = f.signature) :
    (c.withFrame id fr).functionId? ident = c.functionId? ident := by
  rw [functionId?_eq, signatures_withFrame hf h, functionId?_eq]

theorem getElem?_withFrame (hf : c.functions[id]? = some f) :
    (c.withFrame id fr).functions[id]? = some fr.function :=
  List.getElem?_set_self (List.getElem?_eq_some_iff.mp hf).1

theorem getElem?_withFrame_of_ne {other : Nat} (h : other ≠ id) :
    (c.withFrame id fr).functions[other]? = c.functions[other]? :=
  List.getElem?_set_ne (Ne.symm h)

theorem globals_withFrame : (c.withFrame id fr).scopes.get? .global = c.scopes.get? .global := by
  rw [withFrame, ScopeTable.get?_replace]
  rfl

end Context

/-- The function agrees with a head in name and types. -/
structure Function.Matches (f : Function) (head : Prototype) : Prop where
  ident : f.signature.ident = head.ident
  params : f.signature.params = head.params.map Param.ty
  ret : f.signature.ret = head.ret

theorem Function.matches_declared (head : Prototype) (symbol : String) :
    (Function.declared head symbol).Matches head := ⟨rfl, rfl, rfl⟩

namespace Lowering

/-! ## Heads -/

/-- How a head is accepted: the function was declared before with the same types, or is new. -/
inductive Declares (c : Context) (head : Prototype) : Nat → Context → Prop
  | again {id : Nat} {f : Function} (known : c.functionId? head.ident = some id)
      (at? : c.functions[id]? = some f) (agrees : f.Matches head) : Declares c head id c
  | first (unknown : c.functionId? head.ident = none) :
      Declares c head c.functions.length (c.declare head)

/-- A head that is refused changes nothing. -/
theorem declare_apply (head : Prototype) (c : Context) :
    (∃ e, declare head c = (.error e, c)) ∨
      firstRepeated? [] (head.params.map Param.ident) = none ∧
        ∃ id c', declare head c = (.ok id, c') ∧ Declares c head id c' := by
  unfold declare
  cases hrepeated : firstRepeated? [] (head.params.map Param.ident) with
  | some ident => exact .inl ⟨_, rfl⟩
  | none =>
    cases hid : c.functionId? head.ident with
    | none =>
      refine .inr ⟨rfl, c.functions.length, c.declare head, ?_, .first hid⟩
      simp only [bind_state_apply, hid]
      rfl
    | some id =>
      obtain ⟨f, hf, hident⟩ := Context.getElem?_of_functionId? hid
      have hsignature : c.signatures[id]? = some f.signature := by
        rw [Context.signatures, List.getElem?_map, hf, Option.map_some]
      simp only [bind_state_apply, hid, bind_require_apply, hsignature, Option.any_some]
      split
      · next h =>
        simp only [decide_eq_true_eq] at h
        exact .inr ⟨trivial, id, c, rfl, .again hid hf ⟨hident, h.1, h.2⟩⟩
      · exact .inl ⟨_, rfl⟩

variable {c c₁ : Context} {head : Prototype} {id : Nat}

theorem declares_of_eq (h : declare head c = (.ok id, c₁)) : Declares c head id c₁ := by
  rcases declare_apply head c with ⟨e, he⟩ | ⟨-, id', c', hok, hdeclares⟩
  · exact absurd (he.symm.trans h) (by simp)
  · obtain ⟨⟨⟩, rfl⟩ := Prod.mk.inj (hok.symm.trans h)
    exact hdeclares

theorem eq_of_declare_error {e : LoweringError} (h : declare head c = (.error e, c₁)) :
    c₁ = c := by
  rcases declare_apply head c with ⟨e', he⟩ | ⟨-, id', c', hok, -⟩
  · exact (Prod.mk.inj (h.symm.trans he)).2
  · exact absurd (h.symm.trans hok) (by simp)

/-- The head of a known function changes nothing, whether it agrees or not. -/
theorem declare_of_known (h : c.functionId? head.ident = some id) : (declare head c).2 = c := by
  rcases declare_apply head c with ⟨e, he⟩ | ⟨-, id', c', hok, hdeclares⟩
  · rw [he]
  · rw [hok]
    cases hdeclares with
    | again => rfl
    | first unknown => exact absurd (unknown.symm.trans h) (by simp)

theorem Declares.function (h : Declares c head id c₁) :
    ∃ f, c₁.functions[id]? = some f ∧ f.Matches head := by
  cases h with
  | again _ at? agrees => exact ⟨_, at?, agrees⟩
  | first => exact ⟨_, List.getElem?_concat_length, Function.matches_declared head _⟩

/-- What is kept when a function is declared holds after any head that is accepted. -/
theorem Declares.keeps {P : Context → Prop} (h : Declares c head id c₁)
    (hfirst : c.functionId? head.ident = none → P c → P (c.declare head)) (hc : P c) : P c₁ := by
  cases h with
  | again => exact hc
  | first unknown => exact hfirst unknown hc

/-- A head binds no name. -/
theorem Declares.scopes_eq (h : Declares c head id c₁) : c₁.scopes = c.scopes := by
  cases h with
  | again => rfl
  | first => rfl

theorem Declares.functionId? (h : Declares c head id c₁) :
    c₁.functionId? head.ident = some id := by
  cases h with
  | again known => exact known
  | first unknown =>
    have hnone : c.functions.findIdx? (·.signature.ident = head.ident) = none := unknown
    rw [Context.functionId?, Context.declare, List.findIdx?_append, hnone]
    simp [Function.declared, Function.nameParams]

/-- A function that was declared is found under its name, also after a step in its frame. -/
theorem Declares.function?_withFrame {f : Function} {fr : Frame} (h : Declares c head id c₁)
    (hf : c₁.functions[id]? = some f) (hsignature : fr.function.signature = f.signature) :
    (c₁.withFrame id fr).function? head.ident = some fr.function := by
  rw [Context.function?, Context.functionId?_withFrame hf hsignature, h.functionId?,
    Option.bind_some, Context.getElem?_withFrame hf]

end Lowering

/-! ## Bodies -/

/-- The frame in which the parameters of a function are bound: its entry is there and is empty. -/
def Frame.enter (fr : Frame) (head : Prototype) : Frame :=
  { fr with
    function := (fr.function.nameParams head).addBlock "entry"
    locals := fun _ ↦ none }

/-- The frame of a function whose scope is discarded. -/
def Frame.leave (fr : Frame) : Frame := { fr with locals := fun _ ↦ none }

/-- The parameters of a function under the names of a head. -/
def Function.bindings (f : Function) (head : Prototype) : List (String × Value) :=
  (head.params.map Param.ident).zip f.paramValues

/-- Renaming changes no type of a parameter. -/
theorem map_ty_renameParams : ∀ (names : NameTable) (ps : List Param) (wanted : List String),
    (renameParams names ps wanted).1.map Param.ty = ps.map Param.ty
  | _, [], _ => rfl
  | _, _ :: _, [] => rfl
  | names, p :: ps, ident :: rest => by
    rw [renameParams, List.map_cons, List.map_cons, map_ty_renameParams _ ps rest]

theorem Function.map_ty_nameParams (f : Function) (head : Prototype) :
    (f.nameParams head).params.map Param.ty = f.params.map Param.ty :=
  map_ty_renameParams _ _ _

@[simp] theorem Frame.count_enter {fr : Frame} {head : Prototype} :
    (fr.enter head).count = fr.count + 1 :=
  Function.length_addBlock

@[simp] theorem Frame.code_enter {fr : Frame} {head : Prototype} (x : Nat) :
    (fr.enter head).code x = fr.code x :=
  Function.code_addBlock x

/-- A function that had no block starts with an empty one. -/
theorem Frame.code_enter_of_nil {fr : Frame} (head : Prototype) (h : fr.function.blocks = [])
    (x : Nat) : (fr.enter head).code x = [] := by
  rw [code_enter, code_of_le (by rw [count, h]; exact Nat.zero_le x)]

theorem Frame.Extends.enter (fr : Frame) (head : Prototype) : fr.Extends (fr.enter head) := by
  exact ⟨rfl, Function.map_ty_nameParams _ _, by simp, fun b ↦ prefix_of_eq (code_enter b),
    List.prefix_refl _, .refl _⟩

theorem Frame.Extends.leave (fr : Frame) : fr.Extends fr.leave :=
  ⟨rfl, rfl, Nat.le_refl _, fun _ ↦ List.prefix_refl _, List.prefix_refl _, .refl _⟩

namespace Lowering

section

variable {outer : Outer} {head : Prototype} {ss : List Stmt} {block : Nat} {fr fr' : Frame}

theorem body_apply (head : Prototype) (ss : List Stmt) (outer : Outer) (fr : Frame) :
    body head ss outer fr =
      (do
        bindParams outer fr.count ((fr.enter head).function.bindings head)
        let last ← stmts outer ss fr.count
        finish head last
        clearLocals) (fr.enter head) := rfl

/-- A property that holds when the parameters are bound holds of what is left of the body, whatever
its outcome. -/
theorem Invariant.body_keeps {K : Frame → Prop} {Datum Bit : Value → Prop}
    (h : Invariant outer K Datum Bit) {head : Prototype} {ss : List Stmt}
    {fr : Frame} (hfr : K (fr.enter head))
    (hparams : ∀ p ∈ (fr.enter head).function.bindings head, Datum p.2)
    (hret : head.ret = .void → ∀ fr block, K fr → K (Frame.extend fr block [.ret none]))
    (hleave : ∀ fr, K fr → K (Frame.leave fr)) : K (body head ss outer fr).2 := by
  rw [body_apply]
  exact ((h.bindParams_keeps fr.count hparams).bind fun _ ↦ (h.stmts_keeps ss fr.count).bind
    fun last ↦ (h.finish_keeps head last fun hvoid fr ↦ hret hvoid fr last).bind fun _ ↦
    moves_update hleave) (fr.enter head) hfr

theorem body_extends_enter (head : Prototype) (ss : List Stmt) (outer : Outer) (fr : Frame) :
    (fr.enter head).Extends (body head ss outer fr).2 :=
  (extends_invariant outer (fr.enter head)).body_keeps (.refl _) (fun _ _ ↦ trivial)
    (fun _ _ _ h ↦ h.trans .extend) fun fr h ↦ h.trans (.leave fr)

theorem body_moves (head : Prototype) (ss : List Stmt) (outer : Outer) :
    Moves Frame.Extends (body head ss outer) := fun fr ↦
  (Frame.Extends.enter fr head).trans (body_extends_enter head ss outer fr)

/-- The parameters are bound from left to right. -/
inductive Binds (outer : Outer) (block : Nat) : List (String × Value) → Frame → Frame → Prop
  | nil {fr : Frame} : Binds outer block [] fr fr
  | cons {ident : String} {value : Value} {rest : List (String × Value)} {fr fr₁ fr' : Frame}
      (assigned : Assigns outer block ident value fr fr₁)
      (restOk : Binds outer block rest fr₁ fr') :
      Binds outer block ((ident, value) :: rest) fr fr'

theorem binds_of_bindParams {ps : List (String × Value)}
    (h : bindParams outer block ps fr = (.ok (), fr')) : Binds outer block ps fr fr' := by
  induction ps generalizing fr with
  | nil =>
    obtain rfl := (Prod.mk.inj h).2
    exact .nil
  | cons p rest ih =>
    obtain ⟨_, _, hassign, hrest⟩ := bind_eq_ok_iff.mp h
    exact .cons (assigns_of_assign hassign) (ih hrest)

/-- How a body may end in the block in which control falls off it. -/
inductive Finishes (head : Prototype) (block : Nat) : Frame → Frame → Prop
  | ended {fr : Frame} (terminated : fr.function.isTerminated block = true) :
      Finishes head block fr fr
  | dead {fr : Frame} (isOpen : fr.function.isTerminated block = false)
      (isDead : fr.function.isDead block = true) :
      Finishes head block fr (fr.extend block [.unreachable])
  | void {fr : Frame} (isOpen : fr.function.isTerminated block = false)
      (isLive : fr.function.isDead block = false) (ret : head.ret = .void) :
      Finishes head block fr (fr.extend block [.ret none])

theorem finishes_of_finish (h : finish head block fr = (.ok (), fr')) :
    Finishes head block fr fr' := by
  rw [finish, bind_state_apply] at h
  cases hterm : fr.function.isTerminated block with
  | true =>
    rw [if_pos hterm] at h
    obtain rfl := (Prod.mk.inj h).2
    exact .ended hterm
  | false =>
    rw [if_neg (by simp [hterm])] at h
    cases hdead : fr.function.isDead block with
    | true =>
      rw [if_pos hdead, onBlock_emitPlain] at h
      obtain rfl := (Prod.mk.inj h).2
      exact .dead hterm hdead
    | false =>
      rw [if_neg (by simp [hdead]), bind_require_apply] at h
      split at h
      · next hvoid =>
        rw [onBlock_emitPlain] at h
        obtain rfl := (Prod.mk.inj h).2
        exact .void hterm hdead hvoid
      · exact absurd (Prod.mk.inj h).1 (by simp)

/-- The frames that the lowering of a body passes through. -/
structure LowersBody (outer : Outer) (head : Prototype) (ss : List Stmt) (fr : Frame)
    (bound : Frame) (last : Nat) (lowered finished : Frame) : Prop where
  binds : Binds outer fr.count ((fr.enter head).function.bindings head) (fr.enter head) bound
  lowers : Lowers outer ss fr.count bound last lowered
  finishes : Finishes head last lowered finished

theorem lowersBody_of_body (h : body head ss outer fr = (.ok (), fr')) :
    ∃ bound last lowered finished,
      LowersBody outer head ss fr bound last lowered finished ∧ fr' = finished.leave := by
  rw [body_apply] at h
  obtain ⟨_, bound, hbinds, h⟩ := bind_eq_ok_iff.mp h
  obtain ⟨last, lowered, hstmts, h⟩ := bind_eq_ok_iff.mp h
  obtain ⟨_, finished, hfinish, h⟩ := bind_eq_ok_iff.mp h
  exact ⟨bound, last, lowered, finished,
    ⟨binds_of_bindParams hbinds, lowers_of_stmts ss hstmts, finishes_of_finish hfinish⟩,
    (Prod.mk.inj h).2.symm⟩

end

/-! ## Declarations -/

section

variable {c c₁ : Context} {head : Prototype} {id : Nat}

/-- A definition is refused at its head, or since the function is defined already, or else its body
is lowered in the frame of the function. -/
theorem define_apply (head : Prototype) (ss : List Stmt) (c : Context) :
    (∃ e, declare head c = (.error e, c) ∧ define head ss c = (.error e, c)) ∨
      ∃ id c₁ f, declare head c = (.ok id, c₁) ∧ Declares c head id c₁ ∧
        c₁.functions[id]? = some f ∧ f.Matches head ∧
        define head ss c =
          if f.blocks = [] then
            ((body head ss c₁.outer (c₁.frame id f)).1,
              c₁.withFrame id (body head ss c₁.outer (c₁.frame id f)).2)
          else (.error (.alreadyDefined head.ident), c₁) := by
  rcases declare_apply head c with ⟨e, he⟩ | ⟨-, id, c₁, hok, hdeclares⟩
  · refine .inl ⟨e, he, ?_⟩
    rw [define, bind_apply, he]
  · obtain ⟨f, hf, hmatches⟩ := hdeclares.function
    refine .inr ⟨id, c₁, f, hok, hdeclares, hf, hmatches, ?_⟩
    rw [define, bind_apply, hok]
    simp only [bind_state_apply, bind_require_apply, hf, Option.any_some, inFunction]
    by_cases hblocks : f.blocks = []
    · rw [if_pos (by simp [hblocks]), if_pos hblocks]
      rfl
    · rw [if_neg (by simp [hblocks]), if_neg hblocks]

/-- A definition that is accepted: the body is lowered in the frame of a function that has none. -/
theorem exists_of_define {ss : List Stmt} {c' : Context}
    (h : define head ss c = (.ok (), c')) :
    ∃ id c₁ f bound last lowered finished, Declares c head id c₁ ∧
      c₁.functions[id]? = some f ∧ f.Matches head ∧ f.blocks = [] ∧
      LowersBody c₁.outer head ss (c₁.frame id f) bound last lowered finished ∧
      (c₁.frame id f).Extends finished.leave ∧ c' = c₁.withFrame id finished.leave := by
  rcases define_apply head ss c with ⟨e, -, he⟩ | ⟨id, c₁, f, -, hdeclares, hf, hmatches, heq⟩
  · rw [he] at h
    exact absurd (Prod.mk.inj h).1 (by simp)
  · rw [heq] at h
    split at h
    · next hblocks =>
      rcases hresult : body head ss c₁.outer (c₁.frame id f) with ⟨result, fr⟩
      rw [hresult] at h
      obtain ⟨rfl, rfl⟩ := Prod.mk.inj h
      obtain ⟨bound, last, lowered, finished, hbody, rfl⟩ := lowersBody_of_body hresult
      exact ⟨id, c₁, f, bound, last, lowered, finished, hdeclares, hf, hmatches, hblocks, hbody,
        (body_moves head ss c₁.outer).of_eq hresult, rfl⟩
    · exact absurd (Prod.mk.inj h).1 (by simp)

/-- A value outside of all functions is a number or what a global is bound to. -/
theorem constant_apply {σ : Type} (globals : Bindings Binding) (value : Expr) (s : σ) :
    (∃ e, constant globals value s = (.error e, s)) ∨
      ∃ v, constant globals value s = (.ok v, s) ∧
        ((∃ x, v = .number x) ∨ ∃ ident b, globals ident = some b ∧ v = b.value) := by
  cases value with
  | number x => exact .inr ⟨.number x, rfl, .inl ⟨x, rfl⟩⟩
  | name ident =>
    rw [constant]
    cases hglobal : globals ident with
    | none => exact .inl ⟨_, rfl⟩
    | some b => exact .inr ⟨b.value, rfl, .inr ⟨ident, b, hglobal, rfl⟩⟩
  | text | call | binary => exact .inl ⟨_, rfl⟩

/-- A constant is refused since it has no value, or its name is bound. -/
theorem defineConstant_apply (ident : String) (value : Expr) (c : Context) :
    (∃ e, constant (c.scopes.get? .global) value c = (.error e, c) ∧
        defineConstant ident value c = (.error e, c)) ∨
      ∃ v, constant (c.scopes.get? .global) value c = (.ok v, c) ∧
        ((∃ x, v = .number x) ∨ ∃ ident b, c.scopes.get? .global ident = some b ∧ v = b.value) ∧
        defineConstant ident value c =
          (match v with
            | .number _ => .ok ()
            | _ => .error (.notConstant ident),
            c.bindGlobal ident v) := by
  rcases constant_apply (c.scopes.get? .global) value c with ⟨e, he⟩ | ⟨v, hv, hconstant⟩
  · refine .inl ⟨e, he, ?_⟩
    rw [defineConstant, bind_state_apply, bind_apply, he]
  · refine .inr ⟨v, hv, hconstant, ?_⟩
    rw [defineConstant, bind_state_apply, bind_apply, hv]
    cases v <;> rfl

/-- What the lowering of a declaration comes to: its outcome, and the context that it leaves. -/
inductive Effect (c : Context) : Decl → Except LoweringError Unit × Context → Prop
  /-- The head is refused. -/
  | refused {d : Decl} {head : Prototype} {e : LoweringError}
      (isHead : d = .external head ∨ ∃ ss, d = .function head ss)
      (headRefused : declare head c = (.error e, c)) : Effect c d (.error e, c)
  | declared {head : Prototype} {id : Nat} {c₁ : Context} (headOk : declare head c = (.ok id, c₁))
      (declares : Declares c head id c₁) : Effect c (.external head) (.ok (), c₁)
  /-- The function has a body already. -/
  | known {head : Prototype} {ss : List Stmt} {id : Nat} {f : Function}
      (headOk : declare head c = (.ok id, c)) (declares : Declares c head id c)
      (at? : c.functions[id]? = some f) (hasBody : f.blocks ≠ []) :
      Effect c (.function head ss) (.error (.alreadyDefined head.ident), c)
  /-- The body is lowered, with whatever outcome. -/
  | begun {head : Prototype} {ss : List Stmt} {id : Nat} {c₁ : Context} {f : Function}
      {result : Except LoweringError Unit} {fr : Frame} (headOk : declare head c = (.ok id, c₁))
      (declares : Declares c head id c₁) (at? : c₁.functions[id]? = some f)
      (agrees : f.Matches head) (noBody : f.blocks = [])
      (lowered : body head ss c₁.outer (c₁.frame id f) = (result, fr)) :
      Effect c (.function head ss) (result, c₁.withFrame id fr)
  /-- The constant has no value. -/
  | unbound {ident : String} {value : Expr} {e : LoweringError}
      (valueRefused : constant (c.scopes.get? .global) value c = (.error e, c)) :
      Effect c (.constant ident value) (.error e, c)
  | bound {ident : String} {value : Expr} {x : Float}
      (valueOk : constant (c.scopes.get? .global) value c = (.ok (.number x), c)) :
      Effect c (.constant ident value) (.ok (), c.bindGlobal ident (.number x))
  /-- The constant is not a number, and its name is bound all the same. -/
  | notNumber {ident : String} {value : Expr} {v : Value}
      (valueOk : constant (c.scopes.get? .global) value c = (.ok v, c)) (not : ∀ x, v ≠ .number x)
      (isConstant : ∃ ident b, c.scopes.get? .global ident = some b ∧ v = b.value) :
      Effect c (.constant ident value) (.error (.notConstant ident), c.bindGlobal ident v)

theorem effect_decl (d : Decl) (c : Context) : Effect c d (decl d c) := by
  cases d with
  | function head ss =>
    rcases define_apply head ss c with ⟨e, he, heq⟩ | ⟨id, c₁, f, hok, h, hf, hmatches, heq⟩
    · rw [decl, heq]
      exact .refused (.inr ⟨ss, rfl⟩) he
    · rw [decl, heq]
      split
      · next hblocks => exact .begun hok h hf hmatches hblocks rfl
      · next hblocks =>
        cases h with
        | again known at? agrees => exact .known hok (.again known at? agrees) hf hblocks
        | first =>
          -- A function that is new has no blocks.
          rw [Context.declare, List.getElem?_concat_length] at hf
          obtain rfl := Option.some.inj hf
          exact absurd rfl hblocks
  | external head =>
    rw [decl, bind_apply]
    rcases declare_apply head c with ⟨e, he⟩ | ⟨-, id, c₁, hok, h⟩
    · rw [he]
      exact .refused (.inl rfl) he
    · rw [hok]
      exact .declared hok h
  | constant ident value =>
    rcases defineConstant_apply ident value c with ⟨e, he, heq⟩ | ⟨v, hv, hconstant, heq⟩
    · rw [decl, heq]
      exact .unbound he
    · rw [decl, heq]
      cases v with
      | number => exact .bound hv
      | bit | text | param | slot | temp =>
        exact .notNumber hv nofun (hconstant.resolve_left (by simp))

/-- A relation that holds along the changes of a context which a declaration can make holds along
the declaration, also if it is refused. -/
theorem moves_of_decl {R : Context → Context → Prop} [Std.Refl R] [Trans R R R] {d : Decl}
    (hdeclare : ∀ c head, d = .external head ∨ (∃ ss, d = .function head ss) →
      c.functionId? head.ident = none → R c (c.declare head))
    (hbody : ∀ c id f head ss, d = .function head ss → c.functions[id]? = some f → f.blocks = [] →
      f.Matches head → R c (c.withFrame id (body head ss c.outer (c.frame id f)).2))
    (hbind : ∀ c ident v,
      ((∃ x, v = .number x) ∨ ∃ ident b, c.scopes.get? .global ident = some b ∧ v = b.value) →
      R c (c.bindGlobal ident v)) :
    Moves R (decl d) := by
  have hdeclares {c c₁ : Context} {head : Prototype} {id : Nat}
      (hd : d = .external head ∨ (∃ ss, d = .function head ss)) (h : Declares c head id c₁) :
      R c c₁ := by
    cases h with
    | again => exact Std.Refl.refl c
    | first unknown => exact hdeclare c head hd unknown
  intro c
  have heffect := effect_decl d c
  generalize decl d c = r at heffect ⊢
  cases heffect with
  | refused | known | unbound => exact Std.Refl.refl c
  | declared _ declares => exact hdeclares (.inl rfl) declares
  | @begun head ss id c₁ f _ _ _ declares at? agrees noBody lowered =>
    have hlowered := hbody c₁ id f head ss rfl at? noBody agrees
    rw [lowered] at hlowered
    exact Trans.trans (hdeclares (.inr ⟨ss, rfl⟩) declares) hlowered
  | bound => exact hbind c _ _ (.inl ⟨_, rfl⟩)
  | notNumber _ _ isConstant => exact hbind c _ _ (.inr isConstant)

/-- A relation that holds along the three changes of a context holds along every declaration. -/
theorem decl_moves {R : Context → Context → Prop} [Std.Refl R] [Trans R R R]
    (hdeclare : ∀ c head, c.functionId? head.ident = none → R c (c.declare head))
    (hbody : ∀ c id f head ss, c.functions[id]? = some f → f.blocks = [] → f.Matches head →
      R c (c.withFrame id (body head ss c.outer (c.frame id f)).2))
    (hbind : ∀ c ident v,
      ((∃ x, v = .number x) ∨ ∃ ident b, c.scopes.get? .global ident = some b ∧ v = b.value) →
      R c (c.bindGlobal ident v)) (d : Decl) : Moves R (decl d) :=
  moves_of_decl (fun c head _ ↦ hdeclare c head) (fun c id f head ss _ ↦ hbody c id f head ss) hbind

end

end Lowering

/-! ## Sequences of declarations -/

namespace Context

/-- The context after declarations have been lowered one after the other, going on after errors. -/
def after (ds : List Decl) : Context := ds.foldl (fun c d ↦ (Lowering.decl d c).2) .empty

theorem after_concat (ds : List Decl) (d : Decl) :
    after (ds ++ [d]) = (Lowering.decl d (after ds)).2 := by
  rw [after, List.foldl_append]
  rfl

theorem after_induction_of_mem {P : Context → Prop} (ds : List Decl) (hempty : P .empty)
    (hdecl : ∀ c, ∀ d ∈ ds, P c → P (Lowering.decl d c).2) : P (after ds) :=
  List.foldlRecOn ds _ hempty fun c h d hd ↦ hdecl c d hd h

theorem after_induction {P : Context → Prop} (hempty : P .empty)
    (hdecl : ∀ c d, P c → P (Lowering.decl d c).2) (ds : List Decl) : P (after ds) :=
  after_induction_of_mem ds hempty fun c d _ ↦ hdecl c d

/-- `P` holds of the declaration at the place `i` of a run, and of the context in front of it. -/
def HoldsAt (P : Context → Decl → Prop) (ds : List Decl) (i : Nat) : Prop :=
  ∃ d, ds[i]? = some d ∧ P (after (ds.take i)) d

theorem holdsAt_concat_iff {P : Context → Decl → Prop} {ds : List Decl} {d : Decl} {i : Nat} :
    HoldsAt P (ds ++ [d]) i ↔ HoldsAt P ds i ∨ i = ds.length ∧ P (after ds) d := by
  constructor
  · rintro ⟨d', hd', h⟩
    rcases Nat.lt_trichotomy i ds.length with hlt | rfl | hgt
    · rw [List.getElem?_append_left hlt] at hd'
      rw [List.take_append_of_le_length (Nat.le_of_lt hlt)] at h
      exact .inl ⟨d', hd', h⟩
    · rw [List.getElem?_concat_length] at hd'
      rw [List.take_left] at h
      exact .inr ⟨rfl, Option.some.inj hd' ▸ h⟩
    · rw [List.getElem?_eq_none (by simp; omega)] at hd'
      exact absurd hd' (by simp)
  · rintro (⟨d', hd', h⟩ | ⟨rfl, h⟩)
    · have hlt := (List.getElem?_eq_some_iff.mp hd').1
      refine ⟨d', by rw [List.getElem?_append_left hlt, hd'], ?_⟩
      rwa [List.take_append_of_le_length (Nat.le_of_lt hlt)]
    · exact ⟨d, List.getElem?_concat_length, by rwa [List.take_left]⟩

theorem HoldsAt.lt {P : Context → Decl → Prop} {ds : List Decl} {i : Nat} (h : HoldsAt P ds i) :
    i < ds.length := by
  obtain ⟨d, hd, -⟩ := h
  exact (List.getElem?_eq_some_iff.mp hd).1

/-- What a declaration leaves of the functions and of the string constants that were there: a
function that has a body stays as it is, and another one may be given a body. -/
structure Extends (c c' : Context) : Prop where
  functions : ∀ (id : Nat) (f : Function), c.functions[id]? = some f →
    ∃ f', c'.functions[id]? = some f' ∧ f'.signature = f.signature ∧
      f'.params.map Param.ty = f.params.map Param.ty ∧ (f.blocks ≠ [] → f' = f)
  texts : c.symbols.texts <+: c'.symbols.texts

namespace Extends

variable {c c₁ c₂ c₃ : Context}

theorem refl (c : Context) : c.Extends c :=
  ⟨fun _ f hf ↦ ⟨f, hf, rfl, rfl, fun _ ↦ rfl⟩, List.prefix_refl _⟩

theorem trans (h₁ : c₁.Extends c₂) (h₂ : c₂.Extends c₃) : c₁.Extends c₃ := by
  refine ⟨fun id f hf ↦ ?_, h₁.texts.trans h₂.texts⟩
  obtain ⟨f₂, hf₂, hsignature₂, hparams₂, hsame₂⟩ := h₁.functions id f hf
  obtain ⟨f₃, hf₃, hsignature₃, hparams₃, hsame₃⟩ := h₂.functions id f₂ hf₂
  refine ⟨f₃, hf₃, hsignature₃.trans hsignature₂, hparams₃.trans hparams₂, fun hblocks ↦ ?_⟩
  obtain rfl := hsame₂ hblocks
  exact hsame₃ hblocks

instance : Std.Refl Context.Extends := ⟨refl⟩

instance : Trans Context.Extends Context.Extends Context.Extends := ⟨trans⟩

theorem declare (c : Context) (head : Prototype) : c.Extends (c.declare head) := by
  refine ⟨fun id f hf ↦ ⟨f, ?_, rfl, rfl, fun _ ↦ rfl⟩, List.prefix_refl _⟩
  exact List.getElem?_append_left (List.getElem?_eq_some_iff.mp hf).1 ▸ hf

theorem bindGlobal (c : Context) (ident : String) (v : Value) :
    c.Extends (c.bindGlobal ident v) :=
  ⟨(refl c).functions, List.prefix_refl _⟩

theorem withFrame {id : Nat} {f : Function} {fr : Frame} (hf : c.functions[id]? = some f)
    (hblocks : f.blocks = []) (h : (c.frame id f).Extends fr) : c.Extends (c.withFrame id fr) := by
  refine ⟨fun other g hg ↦ ?_, h.symbols.texts⟩
  by_cases hne : other = id
  · subst hne
    rw [hf, Option.some.injEq] at hg
    subst hg
    exact ⟨fr.function, getElem?_withFrame hf, h.signature, h.params,
      fun hsome ↦ absurd hblocks hsome⟩
  · exact ⟨g, by rw [getElem?_withFrame_of_ne hne, hg], rfl, rfl, fun _ ↦ rfl⟩

/-- A function keeps its number. -/
theorem functionId? {ident : String} {id : Nat} (h : c₁.Extends c₂)
    (hid : c₁.functionId? ident = some id) : c₂.functionId? ident = some id := by
  obtain ⟨hlt, hident, hfirst⟩ := List.findIdx?_eq_some_iff_getElem.mp hid
  have hkept (j : Nat) (hj : j < c₁.functions.length) :
      ∃ hj' : j < c₂.functions.length,
        c₂.functions[j].signature = c₁.functions[j].signature := by
    obtain ⟨f, hf, hsignature, -⟩ := h.functions j _ (List.getElem?_eq_getElem hj)
    obtain ⟨hj', rfl⟩ := List.getElem?_eq_some_iff.mp hf
    exact ⟨hj', hsignature⟩
  refine List.findIdx?_eq_some_iff_getElem.mpr ⟨(hkept id hlt).1, ?_, fun j hj ↦ ?_⟩
  · rw [(hkept id hlt).2]
    exact hident
  · rw [(hkept j (by omega)).2]
    exact hfirst j hj

theorem signatures_subset (h : c₁.Extends c₂) : c₁.signatures ⊆ c₂.signatures := by
  intro s hs
  obtain ⟨f, hf, rfl⟩ := List.mem_map.mp hs
  obtain ⟨id, hid⟩ := List.getElem?_of_mem hf
  obtain ⟨f', hf', hsignature, -⟩ := h.functions id f hid
  exact hsignature ▸ List.mem_map_of_mem (List.mem_of_getElem? hf')

end Extends

end Context

namespace Lowering

theorem decl_extends : ∀ d, Moves Context.Extends (decl d) :=
  decl_moves (fun c head _ ↦ .declare c head)
    (fun _ _ _ head ss hf hblocks _ ↦ .withFrame hf hblocks (body_moves head ss _ _))
    (fun c ident v _ ↦ .bindGlobal c ident v)

end Lowering

/-- A run goes on from the context that its beginning leads to. -/
theorem Context.after_append_extends (ds more : List Decl) :
    (after ds).Extends (after (ds ++ more)) := by
  rw [after, after, List.foldl_append]
  exact List.foldlRecOn more _ (.refl _) fun c h d _ ↦ h.trans (Lowering.decl_extends d c)

/-! ## Declarations that are all accepted -/

/-- Declarations are lowered one after the other, all of them without error. -/
inductive Accepts : Context → List Decl → Context → Prop
  | nil {c : Context} : Accepts c [] c
  | cons {c c₁ c' : Context} {d : Decl} {ds : List Decl}
      (accepted : Lowering.decl d c = (.ok (), c₁)) (rest : Accepts c₁ ds c') :
      Accepts c (d :: ds) c'

namespace Accepts

variable {c c' : Context} {ds ds' : List Decl}

theorem append (h : Accepts c (ds ++ ds') c') : ∃ c₁, Accepts c ds c₁ ∧ Accepts c₁ ds' c' := by
  induction ds generalizing c with
  | nil => exact ⟨c, .nil, h⟩
  | cons d ds ih =>
    obtain _ | ⟨accepted, rest⟩ := h
    obtain ⟨c₁, hfirst, hsecond⟩ := ih rest
    exact ⟨c₁, .cons accepted hfirst, hsecond⟩

theorem moves {R : Context → Context → Prop} [Std.Refl R] [Trans R R R]
    (hR : ∀ d, Lowering.Moves R (Lowering.decl d)) (h : Accepts c ds c') : R c c' := by
  induction h with
  | nil => exact Std.Refl.refl _
  | @cons _ _ _ d _ accepted _ ih => exact Trans.trans ((hR d).of_eq accepted) ih

/-- Declarations that are all accepted are the steps of one fold. -/
theorem iff_forM : Accepts c ds c' ↔ forM ds Lowering.decl c = (.ok (), c') := by
  induction ds generalizing c with
  | nil =>
    constructor
    · rintro ⟨⟩
      rfl
    · intro h
      obtain rfl := (Prod.mk.inj h).2
      exact .nil
  | cons d ds ih =>
    rw [List.forM_cons, Lowering.bind_eq_ok_iff]
    constructor
    · rintro (_ | ⟨accepted, rest⟩)
      exact ⟨(), _, accepted, ih.mp rest⟩
    · rintro ⟨_, _, accepted, rest⟩
      exact .cons accepted (ih.mpr rest)

/-- The context is the one that is reached going on after errors, of which there are none. -/
theorem eq_foldl (h : Accepts c ds c') : c' = ds.foldl (fun c d ↦ (Lowering.decl d c).2) c := by
  induction h with
  | nil => rfl
  | cons accepted _ ih => rw [List.foldl_cons, accepted, ih]

end Accepts

end BlockCompiler
