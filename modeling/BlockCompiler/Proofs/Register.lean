import BlockCompiler.Proofs.Refusal
import Mathlib.Data.List.Forall2
import Mathlib.Data.List.Induction

/-!
# The functions of a module

A run of declarations may name a function any number of times, with heads that agree or do not, and
with bodies that are refused half-way. Of all this the module keeps one function for each name that
was ever accepted, in the order of first acceptance, and with the types of the first head
(`Context.Registers`). Its number is its place in this order. It has a body if and only if one
definition passed the test for an earlier one, and no more than one does.
-/

namespace BlockCompiler

/-! ## Heads -/

/-- The first head of each name. -/
def firstHeads (heads : List Prototype) : List Prototype :=
  heads.foldl (fun first head ↦
    if head.ident ∈ first.map Prototype.ident then first else first ++ [head]) []

theorem firstHeads_concat (heads : List Prototype) (head : Prototype) :
    firstHeads (heads ++ [head]) =
      if head.ident ∈ (firstHeads heads).map Prototype.ident then firstHeads heads
      else firstHeads heads ++ [head] := by
  rw [firstHeads, List.foldl_append]
  rfl

theorem mem_ident_firstHeads {heads : List Prototype} {ident : String} :
    ident ∈ (firstHeads heads).map Prototype.ident ↔ ident ∈ heads.map Prototype.ident := by
  induction heads using List.reverseRecOn with
  | nil => exact Iff.rfl
  | append_singleton heads head ih =>
    rw [firstHeads_concat, List.map_append, List.mem_append, ← ih]
    split
    · next hmem =>
      refine ⟨.inl, fun h ↦ h.elim id fun h ↦ ?_⟩
      rwa [List.mem_singleton.mp h]
    · rw [List.map_append, List.mem_append]

theorem nodup_ident_firstHeads (heads : List Prototype) :
    ((firstHeads heads).map Prototype.ident).Nodup := by
  induction heads using List.reverseRecOn with
  | nil => exact List.nodup_nil
  | append_singleton heads head ih =>
    rw [firstHeads_concat]
    split
    · exact ih
    · next hmem =>
      rw [List.map_append, List.map_singleton]
      exact List.nodup_append.mpr ⟨ih, List.nodup_singleton _, fun ident hident other hother ↦ by
        rw [List.mem_singleton.mp hother]
        exact fun heq ↦ hmem (heq ▸ hident)⟩

namespace Context

/-- The head of a declaration, if it is accepted. -/
def acceptedHead? (c : Context) (d : Decl) : Option Prototype :=
  d.head?.filter fun head ↦ (Lowering.declare head c).1.isOk

/-- The heads that are accepted when declarations are lowered one after the other, going on after
errors. -/
def acceptedHeads (c : Context) : List Decl → List Prototype
  | [] => []
  | d :: ds => (c.acceptedHead? d).toList ++ acceptedHeads (Lowering.decl d c).2 ds

theorem acceptedHeads_append (c : Context) (ds ds' : List Decl) :
    c.acceptedHeads (ds ++ ds') = c.acceptedHeads ds ++
      (ds.foldl (fun c d ↦ (Lowering.decl d c).2) c).acceptedHeads ds' := by
  induction ds generalizing c with
  | nil => rfl
  | cons d ds ih =>
    rw [List.cons_append, acceptedHeads, ih, acceptedHeads, List.append_assoc]
    rfl

theorem acceptedHeads_concat (ds : List Decl) (d : Decl) :
    empty.acceptedHeads (ds ++ [d]) =
      empty.acceptedHeads ds ++ ((after ds).acceptedHead? d).toList := by
  rw [acceptedHeads_append, acceptedHeads, acceptedHeads, List.append_nil]
  rfl

end Context

/-! ## Functions -/

/-- The function is declared as the head says, and the parameters of the head are its parameters. -/
structure Function.DeclaredBy (f : Function) (head : Prototype) : Prop extends f.Matches head where
  types : f.params.map Param.ty = head.params.map Param.ty

/-- The functions of the module are declared by the heads, one by each, and no two have the same
name. -/
structure Context.Registers (c : Context) (heads : List Prototype) : Prop where
  functions : List.Forall₂ Function.DeclaredBy c.functions heads
  names : (heads.map Prototype.ident).Nodup

theorem forall₂_set {α β : Type} {R : α → β → Prop} {xs : List α} {ys : List β} {i : Nat}
    {x x' : α} (h : List.Forall₂ R xs ys) (hx : xs[i]? = some x) (hR : ∀ y, R x y → R x' y) :
    List.Forall₂ R (xs.set i x') ys := by
  induction h generalizing i with
  | nil => exact .nil
  | @cons x₀ y xs ys hxy _ ih =>
    cases i with
    | zero =>
      obtain rfl := Option.some.inj hx
      exact .cons (hR y hxy) ‹_›
    | succ i => exact .cons hxy (ih hx)

namespace Context.Registers

variable {c : Context} {heads : List Prototype} {head : Prototype} {ident : String} {id : Nat}

/-- The functions have the names of the heads. -/
theorem ident_eq (h : c.Registers heads) :
    c.functions.map (·.signature.ident) = heads.map Prototype.ident := by
  have hfunctions := h.functions
  generalize c.functions = functions at hfunctions
  clear h
  induction hfunctions with
  | nil => rfl
  | cons hhead _ ih => rw [List.map_cons, List.map_cons, hhead.ident, ih]

/-- The number of a function is the place of its head. -/
theorem functionId?_eq_some_iff (h : c.Registers heads) :
    c.functionId? ident = some id ↔ (heads[id]?).map Prototype.ident = some ident := by
  have hnodup : (c.functions.map (·.signature.ident)).Nodup := h.ident_eq ▸ h.names
  rw [← List.getElem?_map, ← h.ident_eq, List.getElem?_map, Option.map_eq_some_iff]
  constructor
  · exact getElem?_of_functionId?
  · rintro ⟨f, hf, rfl⟩
    obtain ⟨hlt, rfl⟩ := List.getElem?_eq_some_iff.mp hf
    refine List.findIdx?_eq_some_iff_getElem.mpr ⟨hlt, by simp, fun j hj ↦ ?_⟩
    -- An earlier function has another name.
    have hne := List.pairwise_iff_getElem.mp hnodup j id (by simp; omega) (by simpa using hlt) hj
    simpa using hne

theorem functionId?_eq_none_iff (h : c.Registers heads) :
    c.functionId? ident = none ↔ ident ∉ heads.map Prototype.ident := by
  rw [← h.ident_eq, Context.functionId?_eq_none_iff, signatures, List.map_map]
  rfl

theorem empty : Context.empty.Registers [] := ⟨.nil, List.nodup_nil⟩

theorem bindGlobal (h : c.Registers heads) (v : Value) : (c.bindGlobal ident v).Registers heads :=
  ⟨h.functions, h.names⟩

/-- What a body does to its function leaves its name and its types. -/
theorem withFrame {f : Function} {fr : Frame} (h : c.Registers heads)
    (hf : c.functions[id]? = some f) (hextends : (c.frame id f).Extends fr) :
    (c.withFrame id fr).Registers heads := by
  refine ⟨forall₂_set h.functions hf fun head hhead ↦ ⟨⟨?_, ?_, ?_⟩, ?_⟩, h.names⟩
  · rw [hextends.signature]; exact hhead.ident
  · rw [hextends.signature]; exact hhead.params
  · rw [hextends.signature]; exact hhead.ret
  · rw [hextends.params]; exact hhead.types

/-- A head that is accepted is registered, unless its name is. -/
theorem declares {c₁ : Context} (h : c.Registers (firstHeads heads))
    (hparams : ∀ p ∈ head.params, p.ty.isStorable = true)
    (hdeclares : Lowering.Declares c head id c₁) :
    c₁.Registers (firstHeads (heads ++ [head])) := by
  rw [firstHeads_concat]
  cases hdeclares with
  | again known =>
    have hmem : head.ident ∈ (firstHeads heads).map Prototype.ident := by
      by_contra hnot
      exact absurd (known.symm.trans (h.functionId?_eq_none_iff.mpr hnot)) (by simp)
    rw [if_pos hmem]
    exact h
  | first unknown =>
    have hnot := h.functionId?_eq_none_iff.mp unknown
    rw [if_neg hnot]
    refine ⟨List.rel_append h.functions (.cons ⟨Function.matches_declared _ _, ?_⟩ .nil), ?_⟩
    · -- No parameter is left out.
      rw [Function.declared, Function.map_ty_nameParams, List.map_map,
        List.filter_eq_self.mpr hparams]
      rfl
    · have hnames := nodup_ident_firstHeads (heads ++ [head])
      rwa [firstHeads_concat, if_neg hnot] at hnames

end Context.Registers

namespace Context

variable {c : Context} {d : Decl} {ds : List Decl} {ident : String}

theorem acceptedHead?_of_ok {head : Prototype} {id : Nat} {c₁ : Context}
    (hd : d.head? = some head) (h : Lowering.declare head c = (.ok id, c₁)) :
    c.acceptedHead? d = some head := by
  rw [acceptedHead?, hd, Option.filter_some, h]
  rfl

theorem acceptedHead?_of_error {head : Prototype} {e : LoweringError} {c₁ : Context}
    (hd : d.head? = some head) (h : Lowering.declare head c = (.error e, c₁)) :
    c.acceptedHead? d = none := by
  rw [acceptedHead?, hd, Option.filter_some, h]
  rfl

/-- A declaration registers its head, if it is accepted, and does nothing else to the register. -/
theorem Registers.decl {heads : List Prototype} (hd : d.Parsed)
    (h : c.Registers (firstHeads heads)) :
    (Lowering.decl d c).2.Registers (firstHeads (heads ++ (c.acceptedHead? d).toList)) := by
  have heffect := Lowering.effect_decl d c
  generalize Lowering.decl d c = r at heffect ⊢
  cases heffect with
  | @refused _ head _ isHead headRefused =>
    have hhead : d.head? = some head := by rcases isHead with rfl | ⟨ss, rfl⟩ <;> rfl
    rw [acceptedHead?_of_error hhead headRefused, Option.toList_none, List.append_nil]
    exact h
  | declared headOk declares =>
    rw [acceptedHead?_of_ok rfl headOk]
    exact h.declares (hd.head rfl).2.params declares
  | known headOk declares =>
    rw [acceptedHead?_of_ok rfl headOk]
    exact h.declares (hd.head rfl).2.params declares
  | @begun head ss _ c₁ _ _ _ headOk declares at? _ _ lowered =>
    rw [acceptedHead?_of_ok rfl headOk]
    exact (h.declares (hd.head rfl).2.params declares).withFrame at?
      ((Lowering.body_moves head ss c₁.outer).of_eq lowered)
  | unbound =>
    rw [acceptedHead?, Decl.head?, Option.filter_none, Option.toList_none, List.append_nil]
    exact h
  | bound | notNumber =>
    rw [acceptedHead?, Decl.head?, Option.filter_none, Option.toList_none, List.append_nil]
    exact h.bindGlobal _

theorem registers_after (hparsed : ∀ d ∈ ds, d.Parsed) :
    (after ds).Registers (firstHeads (empty.acceptedHeads ds)) := by
  induction ds using List.reverseRecOn with
  | nil => exact .empty
  | append_singleton ds d ih =>
    obtain ⟨hds, hd⟩ := List.forall_mem_append.mp hparsed
    rw [acceptedHeads_concat, after_concat]
    exact (ih hds).decl (hd d (List.mem_singleton_self d))

/-! ## Bodies -/

/-- The function of the name has a body, whole or not. -/
def HasBody (c : Context) (ident : String) : Prop :=
  ∃ f ∈ c.functions, f.signature.ident = ident ∧ f.blocks ≠ []

/-- The declaration defines the function, its head is accepted, and it passes the test for an
earlier definition: the function has no blocks. -/
def BeginsBody (c : Context) (ident : String) (d : Decl) : Prop :=
  ∃ head ss id c₁ f, d = .function head ss ∧ head.ident = ident ∧
    Lowering.declare head c = (.ok id, c₁) ∧ c₁.functions[id]? = some f ∧ f.blocks = []

/-- The declaration at the place `i` of a run begins the body of the function. -/
abbrev BeginsBodyAt (ds : List Decl) (i : Nat) (ident : String) : Prop :=
  HoldsAt (fun c d ↦ c.BeginsBody ident d) ds i

theorem HasBody.mono {c' : Context} (h : c.HasBody ident) (hextends : c.Extends c') :
    c'.HasBody ident := by
  obtain ⟨f, hf, rfl, hblocks⟩ := h
  obtain ⟨id, hid⟩ := List.getElem?_of_mem hf
  obtain ⟨f', hf', -, -, hsame⟩ := hextends.functions id f hid
  obtain rfl := hsame hblocks
  exact ⟨f', List.mem_of_getElem? hf', rfl, hblocks⟩

/-- A head gives no function a body. -/
theorem hasBody_of_declares {c₁ : Context} {head : Prototype} {id : Nat}
    (hdeclares : Lowering.Declares c head id c₁) (h : c₁.HasBody ident) : c.HasBody ident := by
  cases hdeclares with
  | again => exact h
  | first =>
    obtain ⟨f, hf, hident, hblocks⟩ := h
    rcases List.mem_append.mp hf with hf | hf
    · exact ⟨f, hf, hident, hblocks⟩
    · rw [List.mem_singleton.mp hf] at hblocks
      exact absurd rfl hblocks

/-- A definition that begins a body leaves one, whatever its outcome. -/
theorem hasBody_of_beginsBody (h : c.BeginsBody ident d) : (Lowering.decl d c).2.HasBody ident := by
  obtain ⟨head, ss, id, c₁, f, rfl, rfl, hok, hf, hblocks⟩ := h
  have heffect := Lowering.effect_decl (.function head ss) c
  generalize Lowering.decl (.function head ss) c = r at heffect ⊢
  cases heffect with
  | refused isHead headRefused =>
    obtain ⟨ss, hss⟩ := isHead.resolve_left (by simp)
    obtain ⟨rfl, -⟩ := Decl.function.inj hss
    exact absurd (headRefused.symm.trans hok) (by simp)
  | known headOk _ at? hasBody =>
    obtain ⟨⟨⟩, rfl⟩ := Prod.mk.inj (headOk.symm.trans hok)
    obtain rfl := Option.some.inj (at?.symm.trans hf)
    exact absurd hblocks hasBody
  | @begun _ _ id' c₂ g _ fr headOk _ at? agrees _ lowered =>
    have hextends := Lowering.body_extends_enter head ss c₂.outer (c₂.frame id' g)
    rw [lowered] at hextends
    have hcount := hextends.count_le
    rw [Frame.count_enter] at hcount
    refine ⟨fr.function, List.mem_of_getElem? (getElem?_withFrame at?), ?_, fun hnil ↦ ?_⟩
    · rw [hextends.signature]
      exact agrees.ident
    · simp [Frame.count, hnil] at hcount

/-- A function has a body behind a declaration if it had one, or if the declaration begins it. -/
theorem hasBody_decl_iff :
    (Lowering.decl d c).2.HasBody ident ↔ c.HasBody ident ∨ c.BeginsBody ident d := by
  refine ⟨fun h ↦ ?_, fun h ↦ h.elim (·.mono (Lowering.decl_extends d c)) hasBody_of_beginsBody⟩
  have heffect := Lowering.effect_decl d c
  generalize Lowering.decl d c = r at heffect h
  cases heffect with
  | refused | known | unbound => exact .inl h
  | bound | notNumber => exact .inl h
  | declared _ declares => exact .inl (hasBody_of_declares declares h)
  | @begun head ss id c₁ f _ fr headOk declares at? agrees noBody lowered =>
    obtain ⟨g, hg, hident, hblocks⟩ := h
    rcases List.mem_or_eq_of_mem_set hg with hg | rfl
    · exact .inl (hasBody_of_declares declares ⟨g, hg, hident, hblocks⟩)
    · have hsignature := ((Lowering.body_moves head ss c₁.outer).of_eq lowered).signature
      rw [hsignature] at hident
      exact .inr ⟨head, ss, id, c₁, f, rfl, agrees.ident.symm.trans hident, headOk, at?, noBody⟩

/-- No body is begun twice. -/
theorem Registers.not_beginsBody {heads : List Prototype} (h : c.Registers heads)
    (hbody : c.HasBody ident) : ¬c.BeginsBody ident d := by
  rintro ⟨head, ss, id, c₁, f, -, rfl, hok, hf, hblocks⟩
  obtain ⟨g, hg, hident, hsome⟩ := hbody
  obtain ⟨j, hj⟩ := List.getElem?_of_mem hg
  -- The function is known, and it is the one that has a body.
  have hid : c.functionId? head.ident = some j := by
    rw [h.functionId?_eq_some_iff, ← List.getElem?_map, ← h.ident_eq, List.getElem?_map, hj]
    exact congrArg some hident
  cases Lowering.declares_of_eq hok with
  | again known at? =>
    obtain rfl := Option.some.inj (known.symm.trans hid)
    obtain rfl := Option.some.inj (at?.symm.trans hf)
    obtain rfl := Option.some.inj (hj.symm.trans hf)
    exact hsome hblocks
  | first unknown => exact absurd (unknown.symm.trans hid) (by simp)

theorem hasBody_after_iff : (after ds).HasBody ident ↔ ∃ i, BeginsBodyAt ds i ident := by
  induction ds using List.reverseRecOn with
  | nil =>
    refine iff_of_false ?_ ?_
    · rintro ⟨f, hf, -⟩
      exact absurd hf List.not_mem_nil
    · rintro ⟨i, d, hd, -⟩
      exact absurd hd (by simp)
  | append_singleton ds d ih =>
    rw [after_concat, hasBody_decl_iff, ih]
    simp only [BeginsBodyAt, holdsAt_concat_iff, exists_or, exists_eq_left]

/-- The place at which a body is begun is the only one. -/
theorem beginsBodyAt_unique (hparsed : ∀ d ∈ ds, d.Parsed) {i j : Nat}
    (hi : BeginsBodyAt ds i ident) (hj : BeginsBodyAt ds j ident) : i = j := by
  have hnot {i j : Nat} (hlt : i < j) (hi : BeginsBodyAt ds i ident) :
      ¬BeginsBodyAt ds j ident := by
    rintro ⟨d, -, hbegins⟩
    obtain ⟨d', hd', hbegins'⟩ := hi
    have hbody := hasBody_of_beginsBody hbegins'
    have htake : ds.take (i + 1) = ds.take i ++ [d'] := by
      rw [List.take_add_one, hd', Option.toList_some]
    rw [← after_concat, ← htake] at hbody
    have hextends := after_append_extends (ds.take (i + 1)) ((ds.take j).drop (i + 1))
    have htake' : (ds.take j).take (i + 1) = ds.take (i + 1) := by
      rw [List.take_take, Nat.min_eq_left hlt]
    rw [← htake', List.take_append_drop] at hextends
    rw [← htake'] at hbody
    exact (registers_after fun d hd ↦ hparsed d (List.mem_of_mem_take hd)).not_beginsBody
      (hbody.mono hextends) hbegins
  rcases Nat.lt_trichotomy i j with hlt | heq | hgt
  · exact absurd hj (hnot hlt hi)
  · exact heq
  · exact absurd hi (hnot hgt hj)

theorem Registers.blocks_ne_nil_iff {heads : List Prototype} (h : c.Registers heads) {f : Function}
    (hf : f ∈ c.functions) : f.blocks ≠ [] ↔ c.HasBody f.signature.ident := by
  refine ⟨fun hblocks ↦ ⟨f, hf, rfl, hblocks⟩, ?_⟩
  rintro ⟨g, hg, hident, hblocks⟩
  have hnodup : (c.functions.map (·.signature.ident)).Nodup := h.ident_eq ▸ h.names
  rwa [← List.inj_on_of_nodup_map hnodup hg hf hident]

/-! ## Whole runs -/

/-- After any run of declarations, refused ones included, the module has one function for each name
that was accepted. They stand in the order of first acceptance, which numbers them, with the types
of the first accepted head, and they keep all this in any longer run. A function has a body if and
only if a definition of its name began one, and no two did. A head that is refused, a head of a
known function, and a second definition change nothing. -/
theorem register_of_run (ds : List Decl) (hparsed : ∀ d ∈ ds, d.Parsed) :
    let c := after ds
    let accepted := empty.acceptedHeads ds
    c.Registers (firstHeads accepted) ∧
      (∀ ident, ident ∈ c.functions.map (·.signature.ident) ↔
        ident ∈ accepted.map Prototype.ident) ∧
      (∀ ident id, c.functionId? ident = some id ↔
        ((firstHeads accepted)[id]?).map Prototype.ident = some ident) ∧
      (∀ head id c', Lowering.declare head c = (.ok id, c') → c'.functionId? head.ident = some id) ∧
      (∀ (more : List Decl) (id : Nat) (f : Function), c.functions[id]? = some f →
        ∃ f' : Function, (after (ds ++ more)).functions[id]? = some f' ∧
          f'.signature = f.signature ∧ f'.params.map Param.ty = f.params.map Param.ty) ∧
      (∀ f ∈ c.functions, f.blocks ≠ [] ↔ ∃ i, BeginsBodyAt ds i f.signature.ident) ∧
      (∀ ident i j, BeginsBodyAt ds i ident → BeginsBodyAt ds j ident → i = j) ∧
      (∀ head e c', Lowering.declare head c = (.error e, c') → c' = c) ∧
      (∀ head id, c.functionId? head.ident = some id → (Lowering.declare head c).2 = c) ∧
      ∀ d, d.Parsed → ∀ ident c',
        Lowering.decl d c = (.error (.alreadyDefined ident), c') → c' = c := by
  have hregisters := registers_after hparsed
  refine ⟨hregisters, fun ident ↦ ?_, fun ident id ↦ hregisters.functionId?_eq_some_iff,
    fun head id c' hok ↦ (Lowering.declares_of_eq hok).functionId?, fun more id f hf ↦ ?_,
    fun f hf ↦ ?_, fun ident i j ↦ beginsBodyAt_unique hparsed,
    fun head e c' he ↦ Lowering.eq_of_declare_error he,
    fun head id hid ↦ Lowering.declare_of_known hid,
    fun d hd ident c' ↦ Lowering.eq_of_alreadyDefined hparsed hd⟩
  · rw [hregisters.ident_eq, mem_ident_firstHeads]
  · obtain ⟨f', hf', hsignature, htypes, -⟩ := (after_append_extends ds more).functions id f hf
    exact ⟨f', hf', hsignature, htypes⟩
  · rw [hregisters.blocks_ne_nil_iff hf, hasBody_after_iff]

/-- The second head of `f` is refused. The body of `g` is begun and refused, so the second
definition of `g` is refused as well. -/
theorem register_refused_body :
    let ds : List Decl := [.external ⟨.double, "f", [⟨.string, "s"⟩]⟩,
      .function ⟨.double, "f", []⟩ [.eval (.text "a")],
      .function ⟨.double, "g", []⟩ [.eval (.text "a")],
      .function ⟨.double, "g", []⟩ [.ret (.call "g" [])]]
    (after ds).Registers [⟨.double, "f", [⟨.string, "s"⟩]⟩, ⟨.double, "g", []⟩] ∧
      (Lowering.decl (.function ⟨.double, "g", []⟩ [.ret (.call "g" [])]) (after ds)).2 =
        after ds := by
  intro ds
  have hparsed : ∀ d ∈ ds, d.Parsed := by
    simp only [ds, List.forall_mem_cons]
    exact ⟨parsed_of_first "extern double f(string s);" (by decide +kernel),
      parsed_of_first "def double f() \x7b \"a\"; \x7d" (by decide +kernel),
      parsed_of_first "def double g() \x7b \"a\"; \x7d" (by decide +kernel),
      parsed_of_first "def double g() \x7b return g(); \x7d" (by decide +kernel), nofun⟩
  obtain ⟨hregisters, -, -, -, -, -, -, -, -, hagain⟩ := register_of_run ds hparsed
  have hheads : firstHeads (empty.acceptedHeads ds) =
      [⟨.double, "f", [⟨.string, "s"⟩]⟩, ⟨.double, "g", []⟩] := by
    decide +kernel
  exact ⟨hheads ▸ hregisters, hagain _ (hparsed _ (by simp [ds])) "g" _ (Prod.ext rfl rfl)⟩

end Context

end BlockCompiler
