import BlockCompiler.Proofs.Emissions
import BlockCompiler.Proofs.FreshNames
import BlockCompiler.Proofs.Moments

/-!
# Names stay unique

Each function has a name table for its parameters and its blocks, and the module has one for its
functions and its string constants. After any declarations, also if some of them were refused
half-way, a table holds exactly the names of its things, and no two of them are the same
(`Context.Tabled`).

Nothing is asked of the names that are requested for blocks, so it does not matter whether two of
them are made of the same digest. A parameter has to be given a name at all, as every parameter in a
source text is: what has no name is not in the table.
-/

namespace BlockCompiler

/-! ## Functions -/

namespace Function

/-- The names of the parameters and of the blocks. -/
def localNames (f : Function) : List String := f.params.map Param.ident ++ f.blocks.map Block.name

/-- The table of the function holds the names of its parameters and blocks. -/
def Tabled (f : Function) : Prop := f.names.Holds f.localNames

variable {f : Function}

theorem localNames_setCode (f : Function) (block : Nat) (code : List Instr) :
    (f.setCode block code).localNames = f.localNames := by
  rw [localNames, params_setCode, map_name_setCode, localNames]

theorem Tabled.setCode (h : f.Tabled) (block : Nat) (code : List Instr) :
    (f.setCode block code).Tabled := by
  rw [Tabled, localNames_setCode]
  exact h

/-- A block may ask for any name. -/
theorem Tabled.addBlock (h : f.Tabled) (wanted : String) : (f.addBlock wanted).Tabled := by
  refine (h.add "" wanted).of_perm ?_
  rw [localNames, localNames, Function.addBlock, List.map_append, ← List.append_assoc]
  exact (List.perm_append_singleton _ _).symm

theorem Tabled.addBlocks (h : f.Tabled) (wanted : List String) :
    (wanted.foldl Function.addBlock f).Tabled :=
  List.foldlRecOn wanted _ h fun _ h name _ ↦ h.addBlock name

theorem Tabled.nameParams (h : f.Tabled) (head : Prototype) : (f.nameParams head).Tabled :=
  NameTable.holds_renameParams _ h

/-- All parameters get names when a function is declared. -/
theorem tabled_declared {head : Prototype} (hhead : ∀ p ∈ head.params, p.ident ≠ "")
    (symbol : String) : (declared head symbol).Tabled := by
  have hempty : ({} : NameTable).Holds [] := ⟨.nil, List.nodup_nil⟩
  refine NameTable.holds_renameParams_of_empty hempty List.not_mem_nil ?_ ?_ ?_
  · intro p hp
    obtain ⟨_, -, rfl⟩ := List.mem_map.mp hp
    rfl
  · intro w hw
    obtain ⟨p, hp, rfl⟩ := List.mem_map.mp hw
    exact hhead p hp
  · rw [List.length_map, List.length_map]
    exact List.length_filter_le _ _

end Function

/-! ## String constants -/

namespace Symbols

/-- String constants are added one after the other, and nothing else happens. -/
def Adds (s s' : Symbols) : Prop := ∃ contents, s' = s.addTexts contents

theorem Adds.refl (s : Symbols) : s.Adds s := ⟨[], rfl⟩

theorem Adds.trans {s₁ s₂ s₃ : Symbols} (h₁ : s₁.Adds s₂) (h₂ : s₂.Adds s₃) : s₁.Adds s₃ := by
  obtain ⟨xs, rfl⟩ := h₁
  obtain ⟨ys, rfl⟩ := h₂
  exact ⟨xs ++ ys, (addTexts_append s₁ xs ys).symm⟩

/-- The table of a module holds the names of other things besides those of string constants. -/
theorem holds_addText {s : Symbols} {others : List String}
    (hs : s.names.Holds (others ++ s.texts.map TextConstant.symbol)) (contents : String) :
    (s.addText contents).2.names.Holds
      (others ++ (s.addText contents).2.texts.map TextConstant.symbol) := by
  refine (hs.add "." "str").of_perm ?_
  rw [addText, List.map_append, ← List.append_assoc]
  exact (List.perm_append_singleton _ _).symm

theorem Adds.holds {s s' : Symbols} {others : List String} (h : s.Adds s')
    (hs : s.names.Holds (others ++ s.texts.map TextConstant.symbol)) :
    s'.names.Holds (others ++ s'.texts.map TextConstant.symbol) := by
  obtain ⟨contents, rfl⟩ := h
  induction contents generalizing s with
  | nil => exact hs
  | cons x contents ih => exact ih (holds_addText hs x)

end Symbols

/-- All that a step at the end of a block does besides its instructions is to add string constants.
-/
def Tape.Adds (t t' : Tape) : Prop := t.symbols.Adds t'.symbols

instance : Std.Refl Tape.Adds := ⟨fun t ↦ .refl t.symbols⟩

instance : Trans Tape.Adds Tape.Adds Tape.Adds := ⟨fun h₁ h₂ ↦ Symbols.Adds.trans h₁ h₂⟩

/-- The string constants of a step that takes its instructions back stay. -/
theorem Lowering.adds_along (locals : Bindings Binding) : Along locals Tape.Adds where
  emit _ _ _ t := .refl t.symbols
  text contents _ := ⟨[contents], rfl⟩
  rewinding {_ m} h := by
    intro t
    have hm := h t
    rw [rewinding]
    generalize m t = r at hm ⊢
    rcases r with ⟨_ | _, _⟩
    · exact hm
    · exact hm

/-! ## Bodies -/

/-- The function has its names in its table, and string constants have been added to the given ones.
-/
structure Frame.Tabled (s : Symbols) (fr : Frame) : Prop where
  function : fr.function.Tabled
  symbols : s.Adds fr.symbols

namespace Lowering

variable {s : Symbols} {outer : Outer} {head : Prototype} {ss : List Stmt} {fr fr' : Frame}

theorem tabled_stable (s : Symbols) (outer : Outer) :
    StableAlong outer Tape.Adds (Frame.Tabled s) where
  withTape _ block _ hadds h := ⟨h.function.setCode block _, h.symbols.trans hadds⟩
  extend _ block _ h := ⟨h.function.setCode block _, h.symbols⟩
  child _ _ _ h := ⟨h.function.addBlock _, h.symbols⟩
  declare _ _ _ _ _ h := ⟨h.function, h.symbols⟩

theorem tabled_invariant (s : Symbols) (outer : Outer) :
    Invariant outer (Frame.Tabled s) (fun _ ↦ True) fun _ ↦ True :=
  (tabled_stable s outer).invariant adds_along

/-- The parameters are renamed and the entry is named before anything else. -/
theorem tabled_enter (h : fr.function.Tabled) (head : Prototype) :
    (fr.enter head).Tabled fr.symbols :=
  ⟨(h.nameParams head).addBlock "entry", .refl fr.symbols⟩

theorem tabled_body (h : fr.function.Tabled) (head : Prototype) (ss : List Stmt) (outer : Outer) :
    (body head ss outer fr).2.Tabled fr.symbols :=
  (tabled_invariant fr.symbols outer).body_keeps (tabled_enter h head) (fun _ _ ↦ trivial)
    (fun _ fr block ↦ (tabled_stable _ outer).extend fr block _)
    fun _ h ↦ ⟨h.function, h.symbols⟩

theorem Moment.tabled (hmoment : Moment outer head ss fr fr') (h : fr.function.Tabled) :
    fr'.Tabled fr.symbols :=
  hmoment.keeps (tabled_invariant fr.symbols outer) (tabled_enter h head) fun _ _ ↦ trivial

end Lowering

/-! ## Modules -/

namespace Context

/-- The names of the functions and of the string constants. -/
def globalNames (c : Context) : List String :=
  c.signatures.map Signature.symbol ++ c.symbols.texts.map TextConstant.symbol

/-- The tables of the functions and of the module hold the names of their things. -/
structure Tabled (c : Context) : Prop where
  functions : ∀ f ∈ c.functions, f.Tabled
  globals : c.symbols.names.Holds c.globalNames

variable {c : Context} {head : Prototype} {id : Nat} {f : Function} {fr : Frame}

theorem tabled_empty : empty.Tabled := ⟨nofun, .nil, List.nodup_nil⟩

theorem Tabled.declare (h : c.Tabled) (hhead : ∀ p ∈ head.params, p.ident ≠ "") :
    (c.declare head).Tabled := by
  refine ⟨fun f hf ↦ ?_, ?_⟩
  · rcases List.mem_append.mp hf with hf | hf
    · exact h.functions f hf
    · rw [List.mem_singleton.mp hf]
      exact Function.tabled_declared hhead _
  · refine (h.globals.add "." head.ident).of_perm ?_
    rw [globalNames, globalNames, signatures_declare, List.map_append, List.append_assoc]
    exact List.perm_middle.symm

theorem Tabled.withFrame (h : c.Tabled) (hf : c.functions[id]? = some f)
    (hsignature : fr.function.signature = f.signature) (hfr : fr.Tabled c.symbols) :
    (c.withFrame id fr).Tabled := by
  refine ⟨fun g hg ↦ ?_, ?_⟩
  · rcases List.mem_or_eq_of_mem_set hg with hg | rfl
    · exact h.functions g hg
    · exact hfr.function
  · rw [globalNames, signatures_withFrame hf hsignature]
    exact hfr.symbols.holds h.globals

end Context

namespace Lowering

theorem decl_tabled {d : Decl} (hd : d.Parsed) : Moves (Keeps Context.Tabled) (decl d) := by
  refine moves_of_decl (fun c head hhead _ h ↦ h.declare (hd.param_ident_ne_empty ?_))
    (fun c id f head ss _ hf _ _ h ↦ ?_) fun _ _ _ _ h ↦ ⟨h.functions, h.globals⟩
  · rcases hhead with rfl | ⟨ss, rfl⟩
    · rfl
    · rfl
  · have hfunction : (c.frame id f).function.Tabled := h.functions f (List.mem_of_getElem? hf)
    exact h.withFrame hf (body_moves head ss c.outer (c.frame id f)).signature
      (tabled_body hfunction head ss c.outer)

end Lowering

namespace Context

theorem tabled_after {ds : List Decl} (hparsed : ∀ d ∈ ds, d.Parsed) : (after ds).Tabled :=
  after_induction_of_mem ds tabled_empty fun c d hd ↦ Lowering.decl_tabled (hparsed d hd) c

/-- Names stay unique. A name table answers every request, by the wanted name or by a search that
ends, and the answer was free. To rename something is to request a name when the old one is free.
After any declarations, refused ones among them, and at every moment of the body of a further one, a
function has a table of exactly the names of its parameters and blocks, and the module one of those
of its functions and string constants, and no two names in a table are the same. It would stay so if
blocks asked for any other names. -/
theorem names_stay_unique (ds : List Decl) (hparsed : ∀ d ∈ ds, d.Parsed) :
    let c := after ds
    (∀ (t : NameTable) joiner wanted,
        (∀ answer, t.Answers joiner wanted answer ↔ answer = t.add joiner wanted) ∧
        (t.add joiner wanted).1 ∉ t.used ∧
        (t.add joiner wanted).2.used = (t.add joiner wanted).1 :: t.used) ∧
      (∀ (t : NameTable) names joiner old wanted, t.Holds names → old ∈ names ∨ old ≠ wanted →
        (t.rename joiner old wanted).1 = ((t.release old).add joiner wanted).1 ∧
        (t.rename joiner old wanted).1 ∉ names.erase old ∧
        (t.rename joiner old wanted).2.Holds
          ((t.rename joiner old wanted).1 :: names.erase old)) ∧
      (∀ f ∈ c.functions, f.names.Holds f.localNames) ∧
      c.symbols.names.Holds c.globalNames ∧
      (∀ f ∈ c.functions, ∀ wanted : List String, (wanted.foldl Function.addBlock f).Tabled) ∧
      ∀ head ss id c₁ f fr, (Decl.function head ss).Parsed →
        Lowering.declare head c = (.ok id, c₁) → c₁.functions[id]? = some f →
        Lowering.Moment c₁.outer head ss (c₁.frame id f) fr → (c₁.withFrame id fr).Tabled := by
  intro c
  have hc : c.Tabled := tabled_after hparsed
  refine ⟨fun t joiner wanted ↦ ⟨fun _ ↦ NameTable.answers_iff, ?_, ?_⟩,
    fun t names joiner old wanted h hold ↦ ?_, hc.functions, hc.globals,
    fun f hf wanted ↦ (hc.functions f hf).addBlocks wanted,
    fun head ss id c₁ f fr hd hdeclare hf hmoment ↦ ?_⟩
  · exact t.add_fst_not_mem joiner wanted
  · exact t.used_add joiner wanted
  · have hrename := h.rename joiner wanted hold
    exact ⟨h.rename_fst joiner wanted hold, (List.nodup_cons.mp hrename.nodup).1, hrename⟩
  · have hc₁ : c₁.Tabled := (Lowering.declares_of_eq hdeclare).keeps
      (fun _ h ↦ h.declare (hd.param_ident_ne_empty rfl)) hc
    have hf₁ : (c₁.frame id f).function.Tabled := hc₁.functions f (List.mem_of_getElem? hf)
    exact hc₁.withFrame hf hmoment.signature_eq (hmoment.tabled hf₁)

/-- The parameters of `f` were `b`, `a`, `a1` and are renamed to `a`, `b`, `entry`: `a` is in use
until the second one is renamed, and `a1` until the third one is. The entry finds its name in use,
the string constants find that of a function in use, and the body is refused for its result. Where
`str` is given a body next, all names are unique when its parameter is bound. -/
theorem names_stay_unique_clashes :
    let ds : List Decl := [
      .external ⟨.double, "f", [⟨.double, "b"⟩, ⟨.double, "a"⟩, ⟨.double, "a1"⟩]⟩,
      .external ⟨.double, "str", [⟨.string, "s"⟩]⟩,
      .function ⟨.double, "f", [⟨.double, "a"⟩, ⟨.double, "b"⟩, ⟨.double, "entry"⟩]⟩
        [.ifThen (.name "a") [.ifThen (.name "b") [.eval (.call "str" [.text "x"])]],
          .ret (.text "y")]]
    let head : Prototype := ⟨.double, "str", [⟨.string, "s"⟩]⟩
    (∀ d ∈ ds, d.Parsed) ∧ (Decl.function head [.ret (.name "s")]).Parsed ∧
      (after ds).functions.map Function.localNames =
        [["a2", "b", "entry", "entry3", "if-true-block_637e3386", "if-after-block_d78236a3",
          "if-true-block_23d8fca0", "if-after-block_e8e49486"], ["s"]] ∧
      (after ds).globalNames = ["f", "str", "str.1", "str.2"] ∧
      (∀ f ∈ (after ds).functions, f.localNames.Nodup ∧
        (["entry", "entry"].foldl Function.addBlock f).localNames.Nodup) ∧
      (after ds).globalNames.Nodup ∧
      ∃ id c₁ f fr, Lowering.declare head (after ds) = (.ok id, c₁) ∧ c₁.functions[id]? = some f ∧
        Lowering.Moment c₁.outer head [.ret (.name "s")] (c₁.frame id f) fr ∧
        (c₁.withFrame id fr).Tabled := by
  intro ds head
  have hparsed : ∀ d ∈ ds, d.Parsed := by
    simp only [ds, List.forall_mem_cons]
    exact ⟨parsed_of_first "extern double f(double b, double a, double a1);" (by decide +kernel),
      parsed_of_first "extern double str(string s);" (by decide +kernel),
      parsed_of_first ("def double f(double a, double b, double entry) \x7b if a \x7b if b " ++
        "\x7b str(\"x\"); \x7d \x7d return \"y\"; \x7d") (by decide +kernel), nofun⟩
  have hbody : (Decl.function head [.ret (.name "s")]).Parsed :=
    parsed_of_first "def double str(string s) \x7b return s; \x7d" (by decide +kernel)
  obtain ⟨-, -, hfunctions, hglobals, hblocks, hmoments⟩ := names_stay_unique ds hparsed
  have haccepted : (Lowering.declare head (after ds)).1.isOk = true := by decide +kernel
  refine ⟨hparsed, hbody, by decide +kernel, by decide +kernel,
    fun f hf ↦ ⟨(hfunctions f hf).nodup, (hblocks f hf _).nodup⟩, hglobals.nodup, ?_⟩
  rcases Lowering.declare_apply head (after ds) with ⟨e, he⟩ | ⟨-, id, c₁, hdeclare, hdeclares⟩
  · rw [he] at haccepted
    cases haccepted
  · obtain ⟨f, hf, -⟩ := hdeclares.function
    exact ⟨id, c₁, f, _, hdeclare, hf, .params 1,
      hmoments head _ id c₁ f _ hbody hdeclare hf (.params 1)⟩

end Context

end BlockCompiler
