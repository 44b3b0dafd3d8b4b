import BlockCompiler.Compile
import BlockCompiler.Proofs.Grammar.Soundness
import BlockCompiler.Proofs.Lexing
import BlockCompiler.Proofs.Trees

/-!
# Declarations from a source text

Lowering is defined for every tree, and some of its rules can be broken only by trees that no parser
makes: a name in a source text is a word, and a parameter has a type whose values can be passed.
-/

namespace BlockCompiler

/-! ## Words -/

namespace Token

/-- A name consists of letters, digits and underscores. -/
def IsPlain (t : Token) : Prop := ∀ ident, t = name ident → ∀ c ∈ ident.toList, isWordPart c = true

theorem isPlain_of_mem_ofSource (source : String) {t : Token} (h : t ∈ ofSource source) :
    t.IsPlain := by
  rintro ident rfl
  obtain ⟨-, -, -, -, hparts⟩ := (isLexeme_of_mem_ofSource h).1
  exact hparts

theorem ne_empty_of_mem_ofSource {source ident : String} (h : name ident ∈ ofSource source) :
    ident ≠ "" := by
  obtain ⟨c, w, hword, -⟩ := (isLexeme_of_mem_ofSource h).1
  rintro rfl
  simp at hword

end Token

/-! ## Declarations -/

/-- The head of a function, if a function is declared. -/
def Decl.head? : Decl → Option Prototype
  | function head _ | external head => some head
  | constant _ _ => none

/-- The types in a head are types of the language, and those of parameters have values that can be
passed. -/
structure Prototype.Writable (head : Prototype) : Prop where
  params : ∀ p ∈ head.params, p.ty.isStorable = true
  ret : head.ret ≠ .invalid

namespace Grammar

theorem IsParams.isStorable {u : List Token} {ps : List Param} (h : IsParams u ps) :
    ∀ p ∈ ps, p.ty.isStorable = true := by
  have hparam {u : List Token} {p : Param} (h : IsParam u p) : p.ty.isStorable = true := by
    cases h with
    | double | string => rfl
  induction h with
  | one param => exact List.forall_mem_singleton.mpr (hparam param)
  | cons param _ ih => exact List.forall_mem_cons.mpr ⟨hparam param, ih⟩

/-- The names of parameters stand in the text. -/
theorem IsParams.name_mem {u : List Token} {ps : List Param} (h : IsParams u ps) :
    ∀ p ∈ ps, Token.name p.ident ∈ u := by
  have hparam {u : List Token} {p : Param} (h : IsParam u p) : Token.name p.ident ∈ u := by
    cases h with
    | double | string => simp
  induction h with
  | one param => exact List.forall_mem_singleton.mpr (hparam param)
  | cons param _ ih =>
    refine List.forall_mem_cons.mpr ⟨List.mem_append_left _ (hparam param), fun p hp ↦ ?_⟩
    exact List.mem_append_right _ (List.mem_cons_of_mem _ (ih p hp))

/-- The name of a function stands in the text, and so do its types. -/
theorem IsPrototype.of_head {u : List Token} {head : Prototype} (h : IsPrototype u head) :
    Token.name head.ident ∈ u ∧ head.Writable := by
  have hret (t : TypeWord) : t.toTy ≠ .invalid := by cases t <;> exact nofun
  cases h with
  | noParams => exact ⟨by simp, nofun, hret _⟩
  | params ps => exact ⟨by simp, ps.isStorable, hret _⟩

theorem IsPrototype.name_mem {u : List Token} {head : Prototype} (h : IsPrototype u head) :
    ∀ p ∈ head.params, Token.name p.ident ∈ u := by
  cases h with
  | noParams => exact nofun
  | params ps =>
    intro p hp
    simp [ps.name_mem p hp]

/-- The head stands in the text of its declaration. -/
theorem IsDecl.exists_isPrototype {Reading : Expr → Chain → Expr → Prop} {u : List Token} {d : Decl}
    {head : Prototype} (h : IsDecl Reading u d) (hhead : d.head? = some head) :
    ∃ v, v ⊆ u ∧ IsPrototype v head := by
  cases h with
  | function prototype =>
    obtain rfl := Option.some.inj hhead
    exact ⟨_, fun t ht ↦ by simp [ht], prototype⟩
  | external prototype =>
    obtain rfl := Option.some.inj hhead
    exact ⟨_, fun t ht ↦ by simp [ht], prototype⟩
  | constant => exact absurd hhead (by simp [Decl.head?])

end Grammar

/-- The parser makes the declaration, from what is left of the tokens of a source text. -/
def Decl.Parsed (d : Decl) : Prop :=
  ∃ source ts rest h, ts <:+ Token.ofSource source ∧
    Parse.nextDeclaration? ts = some (.ok d rest h)

/-- The first declaration of a source text, if the parser makes one. -/
def firstDeclaration? (source : String) : Option Decl :=
  match Parse.nextDeclaration? (Token.ofSource source) with
  | some (.ok d _ _) => some d
  | _ => none

theorem parsed_of_first (source : String) {d : Decl} (h : firstDeclaration? source = some d) :
    d.Parsed := by
  unfold firstDeclaration? at h
  split at h
  · next d' rest hlt heq =>
    obtain rfl := Option.some.inj h
    exact ⟨source, _, rest, hlt, List.suffix_refl _, heq⟩
  · exact absurd h (by simp)

namespace Parse

theorem skipSemis_suffix (ts : List Token) : skipSemis ts <:+ ts := by
  fun_induction skipSemis ts with
  | case1 rest ih => exact ih.trans (List.suffix_cons _ _)
  | case2 => exact List.suffix_refl _

/-- The declaration is made from what is left behind semicolons. -/
theorem exists_isPrototype {ts rest : List Token} {d : Decl} {head : Prototype}
    {h : rest.length < ts.length} (heq : nextDeclaration? ts = some (.ok d rest h))
    (hhead : d.head? = some head) : ∃ u, u ⊆ ts ∧ Grammar.IsPrototype u head := by
  unfold nextDeclaration? at heq
  split at heq
  · exact absurd heq (by simp)
  · next t r hle hskip _ =>
    have hdecl : (declaration t r).Yields d rest :=
      Outcome.yields_widen.mp ⟨h, Option.some.inj heq⟩
    obtain ⟨u, hu, hd⟩ := declaration_sound (fun _ _ _ h ↦ h) hdecl
    obtain ⟨v, hv, hprototype⟩ := hd.exists_isPrototype hhead
    have hskipped : u ⊆ skipSemis ts := by
      rw [hskip, hu]
      exact List.subset_append_left u rest
    exact ⟨v, fun _ hmem ↦ (skipSemis_suffix ts).subset (hskipped (hv hmem)), hprototype⟩

theorem of_nextDeclaration? {ts rest : List Token} {d : Decl} {head : Prototype}
    {h : rest.length < ts.length} (heq : nextDeclaration? ts = some (.ok d rest h))
    (hhead : d.head? = some head) :
    Token.name head.ident ∈ ts ∧ head.Writable := by
  obtain ⟨u, hu, hprototype⟩ := exists_isPrototype heq hhead
  exact hprototype.of_head.imp_left fun hmem ↦ hu hmem

end Parse

/-- What a head in a source text is like. -/
theorem Decl.Parsed.head {d : Decl} {head : Prototype} (h : d.Parsed)
    (hhead : d.head? = some head) :
    (∀ c ∈ head.ident.toList, isWordPart c = true) ∧ head.Writable := by
  obtain ⟨source, ts, rest, hlt, hsuffix, heq⟩ := h
  obtain ⟨hmem, hwritable⟩ := Parse.of_nextDeclaration? heq hhead
  exact ⟨Token.isPlain_of_mem_ofSource source (hsuffix.subset hmem) head.ident rfl, hwritable⟩

/-- The parameters in a source text have names. -/
theorem Decl.Parsed.param_ident_ne_empty {d : Decl} {head : Prototype} (h : d.Parsed)
    (hhead : d.head? = some head) : ∀ p ∈ head.params, p.ident ≠ "" := by
  obtain ⟨source, ts, rest, hlt, hsuffix, heq⟩ := h
  obtain ⟨u, hu, hprototype⟩ := Parse.exists_isPrototype heq hhead
  exact fun p hp ↦
    Token.ne_empty_of_mem_ofSource (hsuffix.subset (hu (hprototype.name_mem p hp)))

end BlockCompiler
