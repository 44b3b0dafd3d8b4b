import BlockCompiler.Proofs.Declaration
import BlockCompiler.Proofs.Parsing
import Mathlib.Data.List.Nodup

/-!
# Names of functions

A module knows its functions by symbols, and calls refer to symbols. They are unique: a name that is
taken into use was free before, since the search for a free number covers one number more than there
are names in use. So a call reaches the function that the program meant.
-/

namespace BlockCompiler

/-! ## Free names -/

namespace NameTable

theorem numbered_injective {base joiner : String} {k k' : Nat}
    (h : numbered base joiner k = numbered base joiner k') : k = k' := by
  have hdigits := (String.append_right_inj (base ++ joiner)).mp h
  rw [Nat.toString_eq_repr, Nat.toString_eq_repr] at hdigits
  have hvalue := congrArg (fun s ↦ Nat.ofDigitChars 10 s.toList 0) hdigits
  simpa [Nat.toList_repr] using hvalue

/-- There are more candidates than names in use. -/
theorem numbered_firstFree_not_mem (t : NameTable) (base joiner : String) :
    numbered base joiner (t.firstFree base joiner) ∉ t.used := by
  unfold firstFree
  dsimp only
  generalize hcandidates : (List.range (t.used.length + 1)).map (t.counter + 1 + ·) = candidates
  cases hfind : candidates.find? fun k ↦ numbered base joiner k ∉ t.used with
  | some k => simpa using List.find?_some hfind
  | none =>
    -- Otherwise more names would be in use than there are.
    have hsubset : candidates.map (numbered base joiner) ⊆ t.used := by
      intro name hname
      obtain ⟨k, hk, rfl⟩ := List.mem_map.mp hname
      simpa using List.find?_eq_none.mp hfind k hk
    have hnodup : (candidates.map (numbered base joiner)).Nodup := by
      subst hcandidates
      refine List.pairwise_map.mpr (List.pairwise_map.mpr (List.nodup_range.imp fun hne heq ↦ ?_))
      have := numbered_injective heq
      omega
    have hlength := hnodup.length_le_of_subset hsubset
    simp only [← hcandidates, List.length_map, List.length_range] at hlength
    omega

/-- A name that is taken into use was free. -/
theorem add_fst_not_mem (t : NameTable) (joiner wanted : String) :
    (t.add joiner wanted).1 ∉ t.used := by
  unfold add
  split
  · exact t.numbered_firstFree_not_mem wanted joiner
  · assumption

theorem used_add (t : NameTable) (joiner wanted : String) :
    (t.add joiner wanted).2.used = (t.add joiner wanted).1 :: t.used := by
  unfold add
  split <;> rfl

/-- A name that is taken into use is the one that was wanted, or it has a number behind a dot. -/
theorem add_dot_eq_or_dot_mem (t : NameTable) (wanted : String) :
    (t.add "." wanted).1 = wanted ∨ '.' ∈ (t.add "." wanted).1.toList := by
  unfold add
  split
  · exact .inr (by simp [numbered])
  · exact .inl rfl

end NameTable

/-! ## Modules -/

/-- The symbols of functions are unique, and the parameters of a function are those that can be
passed. -/
structure Context.Consistent (c : Context) : Prop where
  symbols : (c.signatures.map Signature.symbol).Nodup
  used : ∀ s ∈ c.signatures, s.symbol ∈ c.symbols.names.used
  params : ∀ f ∈ c.functions, f.params.map Param.ty = f.signature.params.filter Ty.isStorable

namespace Context

variable {c : Context} {head : Prototype} {id : Nat} {f : Function}

theorem consistent_empty : empty.Consistent := ⟨List.nodup_nil, nofun, nofun⟩

theorem Consistent.declare (h : c.Consistent) (head : Prototype) :
    (c.declare head).Consistent := by
  have hfree := c.symbols.names.add_fst_not_mem "." head.ident
  have hused := c.symbols.names.used_add "." head.ident
  refine ⟨?_, fun s hs ↦ ?_, fun f hf ↦ ?_⟩
  · rw [signatures_declare, List.map_append]
    refine List.nodup_append.mpr ⟨h.symbols, by simp, fun symbol hsymbol other hother heq ↦ ?_⟩
    obtain ⟨s, hs, rfl⟩ := List.mem_map.mp hsymbol
    rw [List.map_singleton, List.mem_singleton] at hother
    have hsymbol := h.used s hs
    rw [heq, hother] at hsymbol
    exact hfree hsymbol
  · change s.symbol ∈ (c.symbols.names.add "." head.ident).2.used
    rw [hused]
    rw [signatures_declare, List.mem_append, List.mem_singleton] at hs
    rcases hs with hs | rfl
    · exact List.mem_cons_of_mem _ (h.used s hs)
    · exact List.mem_cons_self
  · rcases List.mem_append.mp hf with hf | hf
    · exact h.params f hf
    · rw [List.mem_singleton.mp hf, Function.declared, Function.map_ty_nameParams, List.map_map]
      exact (List.filter_map (f := Param.ty) (p := Ty.isStorable)).symm

theorem Consistent.withFrame {fr : Frame} (h : c.Consistent) (hf : c.functions[id]? = some f)
    (hextends : (c.frame id f).Extends fr) : (c.withFrame id fr).Consistent := by
  have hsignatures := signatures_withFrame hf hextends.signature
  refine ⟨hsignatures ▸ h.symbols, fun s hs ↦ ?_, fun g hg ↦ ?_⟩
  · exact hextends.symbols.used (h.used s (hsignatures ▸ hs))
  · rcases List.mem_or_eq_of_mem_set hg with hg | rfl
    · exact h.params g hg
    · rw [hextends.params, hextends.signature]
      exact h.params f (List.mem_of_getElem? hf)

theorem Consistent.bindGlobal (h : c.Consistent) (ident : String) (v : Value) :
    (c.bindGlobal ident v).Consistent :=
  ⟨h.symbols, h.used, h.params⟩

/-- A symbol leads back to its function. -/
theorem Consistent.find?_symbol (h : c.Consistent) {s : Signature} (hs : s ∈ c.signatures) :
    c.signatures.find? (·.symbol = s.symbol) = some s := by
  have hnodup := h.symbols
  generalize c.signatures = signatures at hs hnodup ⊢
  induction signatures with
  | nil => exact absurd hs List.not_mem_nil
  | cons first rest ih =>
    obtain ⟨hfirst, hrest⟩ := List.nodup_cons.mp hnodup
    rcases List.mem_cons.mp hs with rfl | hs
    · rw [List.find?_cons_of_pos (by simp)]
    · have hne : first.symbol ≠ s.symbol := fun heq ↦
        hfirst (heq ▸ List.mem_map_of_mem hs)
      rw [List.find?_cons_of_neg (by simpa using hne)]
      exact ih hs hrest

/-! ### Symbols and names

The declared result of a function is looked up under its symbol as if it were the name of a
function. What is found is the function itself or nothing. -/

/-- No two functions have the same name, and a symbol that is not the name of its function has a dot
in it, which no name has. -/
structure Named (c : Context) : Prop where
  idents : (c.signatures.map Signature.ident).Nodup
  symbol : ∀ s ∈ c.signatures, s.symbol = s.ident ∨ '.' ∈ s.symbol.toList
  plain : ∀ s ∈ c.signatures, '.' ∉ s.ident.toList

theorem named_empty : empty.Named := ⟨List.nodup_nil, nofun, nofun⟩

theorem Named.declare (h : c.Named) (hnew : c.functionId? head.ident = none)
    (hplain : '.' ∉ head.ident.toList) : (c.declare head).Named := by
  refine ⟨?_, fun s hs ↦ ?_, fun s hs ↦ ?_⟩
  · rw [signatures_declare, List.map_append]
    refine List.nodup_append.mpr ⟨h.idents, by simp, fun ident hident other hother heq ↦ ?_⟩
    have hother : other = head.ident := List.mem_singleton.mp hother
    exact functionId?_eq_none_iff.mp hnew (hother ▸ heq ▸ hident)
  · rw [signatures_declare, List.mem_append, List.mem_singleton] at hs
    rcases hs with hs | rfl
    · exact h.symbol s hs
    · exact c.symbols.names.add_dot_eq_or_dot_mem head.ident
  · rw [signatures_declare, List.mem_append, List.mem_singleton] at hs
    rcases hs with hs | rfl
    · exact h.plain s hs
    · exact hplain

theorem Named.withFrame {fr : Frame} (h : c.Named) (hf : c.functions[id]? = some f)
    (hextends : (c.frame id f).Extends fr) : (c.withFrame id fr).Named := by
  have hsignatures := signatures_withFrame hf hextends.signature
  exact ⟨hsignatures ▸ h.idents, hsignatures ▸ h.symbol, hsignatures ▸ h.plain⟩

theorem Named.bindGlobal (h : c.Named) (ident : String) (v : Value) :
    (c.bindGlobal ident v).Named :=
  ⟨h.idents, h.symbol, h.plain⟩

/-- A function whose name is the symbol of a function is this function. -/
theorem Named.eq_of_ident_eq_symbol (h : c.Named) {s s' : Signature} (hs : s ∈ c.signatures)
    (hs' : s' ∈ c.signatures) (heq : s'.ident = s.symbol) : s' = s := by
  rcases h.symbol s hs with hsymbol | hdot
  · exact List.inj_on_of_nodup_map h.idents hs' hs (heq.trans hsymbol)
  · exact absurd (heq ▸ hdot) (h.plain s' hs')

end Context

/-- A name in a source text has no dot in it. -/
theorem Decl.Parsed.dot_not_mem {d : Decl} (h : d.Parsed) {head : Prototype}
    (hd : d = .external head ∨ ∃ ss, d = .function head ss) : '.' ∉ head.ident.toList := by
  have hhead : d.head? = some head := by
    rcases hd with rfl | ⟨ss, rfl⟩
    · rfl
    · rfl
  exact fun hdot ↦ absurd ((h.head hhead).1 '.' hdot) (by decide)

namespace Lowering

theorem decl_consistent : ∀ d, Moves (Keeps Context.Consistent) (decl d) :=
  decl_moves (fun _ head _ h ↦ h.declare head)
    (fun _ _ _ head ss hf _ _ h ↦ h.withFrame hf (body_moves head ss _ _))
    (fun _ ident v _ h ↦ h.bindGlobal ident v)

theorem consistent_after (ds : List Decl) : (Context.after ds).Consistent :=
  Context.after_induction Context.consistent_empty (fun c d ↦ decl_consistent d c) ds

end Lowering

end BlockCompiler
