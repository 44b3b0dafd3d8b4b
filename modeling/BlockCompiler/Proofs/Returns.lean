import BlockCompiler.Proofs.Moments
import BlockCompiler.Proofs.Register

/-!
# Returns and the declared result

A return is checked against the result declared under the symbol of the function, as if the symbol
were its name. The two are the same unless the module knew the name for something else when the
function was declared, and all it can be known for is a string constant. String constants ask for
the name `str`. So a function `str` that is declared behind a string constant gets another symbol,
under which nothing is declared: every return in its body is refused, of whatever type the value
(`Lowering.return_checked`). In every other function a return is accepted if and only if its value
is of the declared type.
-/

namespace BlockCompiler

theorem NameTable.add_fst_eq_iff {t : NameTable} {joiner wanted : String} :
    (t.add joiner wanted).1 = wanted ↔ wanted ∉ t.used := by
  constructor
  · exact fun h ↦ h ▸ t.add_fst_not_mem joiner wanted
  · exact fun h ↦ by rw [add, if_neg h]

namespace Context

/-! ## Names in use -/

/-- A name is in use for string constants, once there is one, or for a function, or it has a number
behind a dot. -/
structure Booked (c : Context) : Prop where
  texts : c.symbols.texts ≠ [] → "str" ∈ c.symbols.names.used
  used : ∀ n ∈ c.symbols.names.used,
    (n = "str" ∧ c.symbols.texts ≠ []) ∨ n ∈ c.signatures.map Signature.ident ∨ '.' ∈ n.toList

namespace Booked

variable {c : Context} {head : Prototype}

theorem empty : Context.empty.Booked := ⟨fun h ↦ absurd rfl h, nofun⟩

theorem declare (h : c.Booked) (head : Prototype) : (c.declare head).Booked := by
  have hused := c.symbols.names.used_add "." head.ident
  refine ⟨fun htexts ↦ ?_, fun n hn ↦ ?_⟩
  · change "str" ∈ (c.symbols.names.add "." head.ident).2.used
    rw [hused]
    exact List.mem_cons_of_mem _ (h.texts htexts)
  · change n ∈ (c.symbols.names.add "." head.ident).2.used at hn
    rw [signatures_declare, List.map_append]
    rw [hused] at hn
    rcases List.mem_cons.mp hn with rfl | hn
    · rcases c.symbols.names.add_dot_eq_or_dot_mem head.ident with heq | hdot
      · exact .inr (.inl (List.mem_append_right _ (List.mem_singleton.mpr heq)))
      · exact .inr (.inr hdot)
    · exact (h.used n hn).imp_right fun h ↦ h.imp_left fun h ↦ List.mem_append_left _ h

theorem withFrame {id : Nat} {f : Function} {fr : Frame} (h : c.Booked)
    (hf : c.functions[id]? = some f) (hextends : (c.frame id f).Extends fr) :
    (c.withFrame id fr).Booked := by
  have hsignatures := signatures_withFrame hf hextends.signature
  rcases hextends.symbols.taken with heq | ⟨htexts, hstr⟩
  · have hsymbols : (c.withFrame id fr).symbols = c.symbols := heq
    exact ⟨hsymbols ▸ h.texts, hsignatures ▸ hsymbols ▸ h.used⟩
  · refine ⟨fun _ ↦ hstr, fun n hn ↦ ?_⟩
    rw [hsignatures]
    rcases hextends.symbols.fresh n hn with hn | rfl | ⟨k, rfl⟩
    · exact (h.used n hn).imp_left fun h ↦ ⟨h.1, htexts⟩
    · exact .inl ⟨rfl, htexts⟩
    · exact .inr (.inr (by simp [NameTable.numbered]))

theorem bindGlobal (h : c.Booked) (ident : String) (v : Value) : (c.bindGlobal ident v).Booked :=
  ⟨h.texts, h.used⟩

/-- A function that is new gets its name as its symbol, but for `str` in a module with string
constants. -/
theorem symbol_eq_iff (h : c.Booked) (hnew : c.functionId? head.ident = none)
    (hplain : '.' ∉ head.ident.toList) :
    (c.symbols.names.add "." head.ident).1 = head.ident ↔
      ¬(head.ident = "str" ∧ c.symbols.texts ≠ []) := by
  rw [NameTable.add_fst_eq_iff, not_iff_not]
  constructor
  · intro hused
    exact (h.used _ hused).resolve_right fun hother ↦
      hother.elim (functionId?_eq_none_iff.mp hnew) hplain
  · rintro ⟨heq, htexts⟩
    exact heq ▸ h.texts htexts

end Booked

end Context

namespace Lowering

theorem decl_booked : ∀ d, Moves (Keeps Context.Booked) (decl d) :=
  decl_moves (fun _ head _ h ↦ h.declare head)
    (fun _ _ _ head ss hf _ _ h ↦ h.withFrame hf (body_moves head ss _ _))
    (fun _ ident v _ h ↦ h.bindGlobal ident v)

theorem booked_after (ds : List Decl) : (Context.after ds).Booked :=
  Context.after_induction .empty (fun c d ↦ decl_booked d c) ds

end Lowering

/-! ## Symbols along a run -/

namespace Context

/-- The declaration introduces the function to a module that has string constants, under the name
that these ask for. -/
def Displaces (c : Context) (ident : String) (d : Decl) : Prop :=
  ident = "str" ∧ c.symbols.texts ≠ [] ∧ c.functionId? ident = none ∧
    (c.acceptedHead? d).map Prototype.ident = some ident

/-- A declaration of the run does so. -/
def Displaced (ds : List Decl) (ident : String) : Prop :=
  ∃ i, HoldsAt (fun c d ↦ c.Displaces ident d) ds i

theorem not_displaced_of_ne {ds : List Decl} {ident : String} (h : ident ≠ "str") :
    ¬Displaced ds ident :=
  fun ⟨_, _, _, hstr, _⟩ ↦ h hstr

theorem displaced_concat_iff {ds : List Decl} {d : Decl} {ident : String} :
    Displaced (ds ++ [d]) ident ↔ Displaced ds ident ∨ (after ds).Displaces ident d := by
  simp only [Displaced, holdsAt_concat_iff, exists_or, exists_eq_left]

theorem displaces_iff {c : Context} {d : Decl} {head : Prototype} {ident : String}
    (h : c.acceptedHead? d = some head) :
    c.Displaces ident d ↔ ident = "str" ∧ c.symbols.texts ≠ [] ∧ c.functionId? ident = none ∧
      head.ident = ident := by
  rw [Displaces, h, Option.map_some, Option.some.injEq]

theorem not_displaces {c : Context} {d : Decl} {ident : String} (h : c.acceptedHead? d = none) :
    ¬c.Displaces ident d := by
  rintro ⟨-, -, -, hident⟩
  rw [h] at hident
  exact nomatch hident

/-- The functions that have their names as symbols are those that the run has not displaced. -/
structure Follows (c : Context) (ds : List Decl) : Prop where
  symbol : ∀ s ∈ c.signatures, s.symbol = s.ident ↔ ¬Displaced ds s.ident
  known : ∀ ident, Displaced ds ident → ident ∈ c.signatures.map Signature.ident

namespace Follows

variable {c c₁ : Context} {ds : List Decl} {d : Decl} {head : Prototype} {id : Nat}

theorem empty : Context.empty.Follows [] :=
  ⟨nofun, fun _ ⟨_, _, h, _⟩ ↦ nomatch h⟩

theorem of_signatures_eq (h : c.Follows ds) (heq : c₁.signatures = c.signatures) :
    c₁.Follows ds :=
  ⟨heq ▸ h.symbol, heq ▸ h.known⟩

theorem concat (h : c.Follows ds) (hd : ∀ ident, ¬(after ds).Displaces ident d) :
    c.Follows (ds ++ [d]) := by
  have hiff (ident : String) : Displaced (ds ++ [d]) ident ↔ Displaced ds ident :=
    displaced_concat_iff.trans (or_iff_left (hd ident))
  exact ⟨fun s hs ↦ (h.symbol s hs).trans (not_congr (hiff _).symm),
    fun ident hident ↦ h.known ident ((hiff ident).mp hident)⟩

/-- A head that is accepted. -/
theorem declares (h : (after ds).Follows ds) (hhead : d.head? = some head)
    (hplain : '.' ∉ head.ident.toList) (headOk : Lowering.declare head (after ds) = (.ok id, c₁)) :
    c₁.Follows (ds ++ [d]) := by
  have hdisplaces (ident : String) : (after ds).Displaces ident d ↔ ident = "str" ∧
      (after ds).symbols.texts ≠ [] ∧ (after ds).functionId? ident = none ∧ head.ident = ident :=
    displaces_iff (acceptedHead?_of_ok hhead headOk)
  cases Lowering.declares_of_eq headOk with
  | again known =>
    refine h.concat fun ident hd ↦ ?_
    obtain ⟨-, -, hnone, rfl⟩ := (hdisplaces ident).mp hd
    exact absurd (known.symm.trans hnone) nofun
  | first unknown =>
    have hnew := functionId?_eq_none_iff.mp unknown
    refine ⟨fun s hs ↦ ?_, fun ident hident ↦ ?_⟩
    · rw [displaced_concat_iff, hdisplaces]
      rw [signatures_declare, List.mem_append, List.mem_singleton] at hs
      rcases hs with hs | rfl
      · rw [h.symbol s hs, or_iff_left]
        rintro ⟨-, -, -, heq⟩
        exact hnew (heq ▸ List.mem_map_of_mem hs)
      · rw [or_iff_right fun hbefore ↦ hnew (h.known _ hbefore),
          (Lowering.booked_after ds).symbol_eq_iff unknown hplain]
        simp [unknown]
    · rw [signatures_declare, List.map_append, List.mem_append]
      rcases displaced_concat_iff.mp hident with hbefore | hd
      · exact .inl (h.known ident hbefore)
      · exact .inr (List.mem_singleton.mpr ((hdisplaces ident).mp hd).2.2.2.symm)

/-- A declaration from a source text. -/
theorem decl (h : (after ds).Follows ds) (hd : d.Parsed) :
    (after (ds ++ [d])).Follows (ds ++ [d]) := by
  rw [after_concat]
  have heffect := Lowering.effect_decl d (after ds)
  generalize Lowering.decl d (after ds) = r at heffect ⊢
  cases heffect with
  | @refused _ head _ isHead headRefused =>
    have hhead : d.head? = some head := by rcases isHead with rfl | ⟨ss, rfl⟩ <;> rfl
    exact h.concat fun _ ↦ not_displaces (acceptedHead?_of_error hhead headRefused)
  | declared headOk => exact h.declares rfl (hd.dot_not_mem (.inl rfl)) headOk
  | known headOk => exact h.declares rfl (hd.dot_not_mem (.inr ⟨_, rfl⟩)) headOk
  | @begun head ss _ c₁ _ _ _ headOk _ at? _ _ lowered =>
    have hextends := (Lowering.body_moves head ss c₁.outer).of_eq lowered
    exact (h.declares rfl (hd.dot_not_mem (.inr ⟨_, rfl⟩)) headOk).of_signatures_eq
      (signatures_withFrame at? hextends.signature)
  | unbound => exact h.concat fun _ ↦ not_displaces rfl
  | bound | notNumber => exact (h.concat fun _ ↦ not_displaces rfl).of_signatures_eq rfl

end Follows

theorem follows_after {ds : List Decl} (hds : ∀ d ∈ ds, d.Parsed) : (after ds).Follows ds := by
  induction ds using List.reverseRecOn with
  | nil => exact .empty
  | append_singleton ds d ih =>
    obtain ⟨hds, hd⟩ := List.forall_mem_append.mp hds
    exact (ih hds).decl (hd d (List.mem_singleton_self d))

end Context

/-! ## Returns -/

namespace Lowering

section

variable {outer : Outer} {block : Nat} {fr : Frame}

/-- A return whose value is lowered comes down to the test of its type. -/
theorem stmt_ret_apply {e : Expr} {v : Value} {t : Tape}
    (isOpen : fr.function.isTerminated block = false)
    (valueOk : expr (fr.env outer) e (fr.tape block) = (.ok v, t)) :
    stmt outer (.ret e) block fr =
      if declaredRet outer fr = some v.ty then
        (.ok block, (fr.withTape block t).extend block [.ret (some v)])
      else (.error (.returnMismatch fr.function.signature.symbol), fr.withTape block t) := by
  have hwithin : within outer block (fun env ↦ expr env e) fr = (.ok v, fr.withTape block t) :=
    within_eq_ok_iff.mpr ⟨t, valueOk, rfl⟩
  rw [stmt, requireOpen, bind_assoc, bind_state_apply, bind_require_apply, if_pos isOpen,
    bind_apply, hwithin]
  simp only [returnValue, bind_assoc, bind_state_apply, bind_require_apply]
  rfl

end

/-- What is found under the symbol of a function is the function itself, if the symbol is its name,
and nothing otherwise. -/
theorem declaredRet_eq {c : Context} {id : Nat} {f : Function} {fr : Frame} (hnamed : c.Named)
    (hf : c.functions[id]? = some f) (hfr : fr.function.signature = f.signature) :
    declaredRet c.outer fr =
      if f.signature.symbol = f.signature.ident then some f.signature.ret else none := by
  have hmem : f.signature ∈ c.signatures := List.mem_map_of_mem (List.mem_of_getElem? hf)
  rw [declaredRet, hfr]
  change (c.signatures.find? (·.ident = f.signature.symbol)).map Signature.ret = _
  cases hfind : c.signatures.find? (·.ident = f.signature.symbol) with
  | none =>
    have hne : f.signature.ident ≠ f.signature.symbol := by
      simpa using List.find?_eq_none.mp hfind _ hmem
    rw [if_neg hne.symm]
    rfl
  | some s =>
    have hident : s.ident = f.signature.symbol := by simpa using List.find?_some hfind
    obtain rfl := hnamed.eq_of_ident_eq_symbol hmem (List.mem_of_find?_eq_some hfind) hident
    rw [if_pos hident.symm]
    rfl

/-- In every run, a return that the lowering of a body comes to at an open block, and whose value is
lowered, is accepted if and only if the value is of the type that the head declares and the run has
not displaced the function: it is not called `str`, or it was introduced before there were string
constants. -/
theorem return_checked {ds : List Decl} (hds : ∀ d ∈ ds, d.Parsed) {head : Prototype}
    {ss : List Stmt} (hd : (Decl.function head ss).Parsed) {id : Nat} {c : Context} {f : Function}
    (headOk : declare head (Context.after ds) = (.ok id, c)) (hf : c.functions[id]? = some f)
    {bound : Frame}
    (paramsOk : bindParams c.outer (c.frame id f).count
      (((c.frame id f).enter head).function.bindings head) ((c.frame id f).enter head) =
        (.ok (), bound))
    {e : Expr} {rest : List Stmt} {block : Nat} {fr : Frame} {v : Value} {t : Tape}
    (comes : ComesTo c.outer ss (c.frame id f).count bound (.ret e :: rest) block fr)
    (isOpen : fr.function.isTerminated block = false)
    (valueOk : expr (fr.env c.outer) e (fr.tape block) = (.ok v, t)) :
    (v.ty = head.ret ∧ ¬Context.Displaced (ds ++ [.function head ss]) head.ident →
        stmt c.outer (.ret e) block fr =
          (.ok block, (fr.withTape block t).extend block [.ret (some v)])) ∧
      (v.ty ≠ head.ret ∨ Context.Displaced (ds ++ [.function head ss]) head.ident →
        stmt c.outer (.ret e) block fr =
          (.error (.returnMismatch f.signature.symbol), fr.withTape block t)) := by
  have hplain := hd.dot_not_mem (.inr ⟨ss, rfl⟩)
  have hdeclares := declares_of_eq headOk
  have hnamed : c.Named := hdeclares.keeps (fun hnew h ↦ h.declare hnew hplain) (marked_after hds).1
  have hfollows : c.Follows (ds ++ [.function head ss]) :=
    (Context.follows_after hds).declares rfl hplain headOk
  obtain ⟨f', hf', hmatches⟩ := hdeclares.function
  obtain rfl := Option.some.inj (hf'.symm.trans hf)
  have hsignature : fr.function.signature = f'.signature :=
    comes.signature_eq.trans (signature_of_bindParams paramsOk)
  have hsymbol := hfollows.symbol f'.signature (List.mem_map_of_mem (List.mem_of_getElem? hf))
  have hdeclared : declaredRet c.outer fr = some v.ty ↔
      v.ty = head.ret ∧ ¬Context.Displaced (ds ++ [.function head ss]) head.ident := by
    rw [declaredRet_eq hnamed hf hsignature, ← hmatches.ident, ← hmatches.ret, ← hsymbol]
    split
    · next h => simp [h, eq_comm]
    · next h => simp [h]
  rw [stmt_ret_apply isOpen valueOk, hsignature]
  refine ⟨fun h ↦ if_pos (hdeclared.mpr h), fun h ↦ if_neg fun hfound ↦ ?_⟩
  obtain ⟨hty, hnot⟩ := hdeclared.mp hfound
  exact h.elim (· hty) hnot

/-- A body whose only effect is a string constant. -/
theorem parsed_constant_body :
    ∀ d ∈ [Decl.function ⟨.void, "g", []⟩ [.eval (.text "a")]], d.Parsed :=
  List.forall_mem_singleton.mpr
    (parsed_of_first "def void g() \x7b \"a\"; \x7d" (by decide +kernel))

/-- The return of `s` in a branch of `f`, behind the string constant of `g`. -/
theorem return_checked_branch :
    let head : Prototype := ⟨.string, "f", [⟨.double, "x"⟩, ⟨.string, "s"⟩]⟩
    let c := (declare head (Context.after [.function ⟨.void, "g", []⟩ [.eval (.text "a")]])).2
    let bound := (bindParams c.outer 0 [("x", .param 0 .double), ("s", .param 1 .pointer)]
      ((c.frame 1 (Function.declared head "f")).enter head)).2
    let t := (condition (bound.env c.outer) (.name "x") (bound.tape 0)).2
    let fr := (bound.withTape 0 t).fork 0 (.temp 3 .bit)
    (stmt c.outer (.ret (.name "s")) 1 fr).1 = .ok 1 := by
  intro head c bound t fr
  have hd : (Decl.function head [.ifThen (.name "x") [.ret (.name "s")]]).Parsed :=
    parsed_of_first "def string f(double x, string s) \x7b if x \x7b return s; \x7d \x7d"
      (by decide +kernel)
  have headOk : declare head (Context.after [.function ⟨.void, "g", []⟩ [.eval (.text "a")]]) =
      (.ok 1, c) := rfl
  have hf : c.functions[1]? = some (Function.declared head "f") := rfl
  have paramsOk : bindParams c.outer 0 [("x", .param 0 .double), ("s", .param 1 .pointer)]
      ((c.frame 1 (Function.declared head "f")).enter head) = (.ok (), bound) := rfl
  have hcomes : ComesTo c.outer [.ifThen (.name "x") [.ret (.name "s")]] 0 bound
      [.ret (.name "s")] 1 fr := .ifThen rfl rfl .here
  have valueOk : expr (fr.env c.outer) (.name "s") (fr.tape 1) = (.ok (.temp 0 .pointer),
      (expr (fr.env c.outer) (.name "s") (fr.tape 1)).2) := rfl
  have hreturn := return_checked parsed_constant_body hd headOk hf paramsOk hcomes rfl valueOk
  rw [hreturn.1 ⟨rfl, Context.not_displaced_of_ne (by decide)⟩]

/-- Behind the string constant of `g`, the return of `str` is refused, though of its type. -/
theorem return_of_str_refused :
    ¬∀ (ds : List Decl) (head : Prototype) (ss : List Stmt) (id : Nat) (c : Context) (f : Function)
      (bound fr : Frame) (e : Expr) (rest : List Stmt) (block : Nat) (v : Value) (t : Tape),
      (∀ d ∈ ds, d.Parsed) → (Decl.function head ss).Parsed →
      declare head (Context.after ds) = (.ok id, c) → c.functions[id]? = some f →
      bindParams c.outer (c.frame id f).count
        (((c.frame id f).enter head).function.bindings head) ((c.frame id f).enter head) =
          (.ok (), bound) →
      ComesTo c.outer ss (c.frame id f).count bound (.ret e :: rest) block fr →
      fr.function.isTerminated block = false →
      expr (fr.env c.outer) e (fr.tape block) = (.ok v, t) →
      ((stmt c.outer (.ret e) block fr).1.isOk = true ↔ v.ty = head.ret) := by
  intro h
  have hreturn := h _ ⟨.string, "str", []⟩ [.ret (.text "b")] 1 _
    (Function.declared ⟨.string, "str", []⟩ "str.1") _ _ (.text "b") [] 0 (.text 1) _
    parsed_constant_body
    (parsed_of_first "def string str() \x7b return \"b\"; \x7d" (by decide +kernel))
    (Prod.ext rfl rfl) rfl (Prod.ext rfl rfl) .here rfl rfl
  exact absurd (hreturn.mpr rfl) (by decide +kernel)

end Lowering

end BlockCompiler
