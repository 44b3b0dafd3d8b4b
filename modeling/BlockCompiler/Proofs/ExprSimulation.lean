import BlockCompiler.Proofs.Agreement
import BlockCompiler.Proofs.Machine

/-!
# Code that computes expressions

The instructions that an expression is lowered to compute the value that direct evaluation finds,
and make the calls that it makes, in the same order.

## Between two operands

The instructions of one operand are executed before those of the next, and their results stay where
they are: results are only appended while a machine stays in a block (`Machine.Advances`). An
operand that stands for a word therefore still does so when its instruction is reached.
-/

namespace BlockCompiler

/-! ## Evaluations that come to a value -/

/-- If the evaluation comes to a value, then `Q` holds of it and of the calls. The only other thing
that may happen is that a local is read that was not set. -/
def Follows {α : Type} (Q : α → History → Prop) : Except Fault (α × History) → Prop
  | .ok (a, history) => Q a history
  | .error (.unset _) => True
  | .error .mismatch => False

theorem Follows.bind {α β : Type} {Q : α → History → Prop} {Q' : β → History → Prop}
    {m : Evaluation α} {f : α → Evaluation β} {history : History} (h : Follows Q (m history))
    (hf : ∀ a history', Q a history' → Follows Q' (f a history')) :
    Follows Q' ((m >>= f) history) := by
  change Follows Q' (m history >>= fun p ↦ f p.1 p.2)
  generalize m history = r at h ⊢
  rcases r with (ident | _) | ⟨a, history'⟩
  · trivial
  · exact h.elim
  · exact hf a history' h

theorem Follows.mono {α : Type} {Q Q' : α → History → Prop} {r : Except Fault (α × History)}
    (h : Follows Q r) (hQ : ∀ a history, Q a history → Q' a history) : Follows Q' r := by
  rcases r with (ident | _) | ⟨a, history⟩
  · trivial
  · exact False.elim h
  · exact hQ a history h

namespace Machine

/-! ## What ties a machine to a program -/

/-- The machine refers to the module in which `outer` is seen, and `names` are the locals of its
function. -/
structure Linked (m : Machine) (w : World) (outer : Outer) (names : Bindings Binding) : Prop where
  answers : m.answers = w.answers
  typed : w.answers.Typed outer.signatures
  callee : ∀ s ∈ outer.signatures, m.signatures.find? (·.symbol = s.symbol) = some s
  constants : ∀ ident, (outer.globals ident).map Binding.value = (w.constants ident).map .number
  /-- A local has a slot of its own, and is no global. -/
  locals : ∀ ident b, names ident = some b → outer.globals ident = none ∧
    ∃ index, b.value = .slot index b.ty ∧ m.function.slots[index]? = some ⟨ident, b.ty⟩

end Machine

/-- What lowering sees of the surroundings of an expression is what there is in the end. -/
structure Env.Within (env : Env) (outer : Outer) (names : Bindings Binding) : Prop where
  signatures : env.signatures = outer.signatures
  globals : env.globals = outer.globals
  locals : ∀ ident b, env.locals ident = some b → names ident = some b

namespace Machine

/-- The block of the machine starts with the code, and the string constants are there. -/
structure Contains (m : Machine) (block : Nat) (t : Tape) : Prop where
  code : t.code <+: m.function.code block
  texts : t.symbols.texts <+: m.texts

theorem Contains.of_extends {m : Machine} {block : Nat} {t t' : Tape} (h : m.Contains block t')
    (hextends : t.Extends t') : m.Contains block t :=
  ⟨hextends.prefix_code.trans h.code, hextends.symbols.texts.trans h.texts⟩

/-- The machine stands behind the code in a block, and the slots of the locals that are set hold
their values. -/
structure State.Holds (names : Bindings Binding) (block : Nat) (code : List Instr)
    (locals : Bindings Datum) (history : History) (s : State) : Prop where
  block : s.block = block
  length : s.results.length = code.length
  history : s.history = history
  locals : ∀ ident d, locals ident = some d →
    ∃ index, names ident = some ⟨.slot index d.ty, d.ty⟩ ∧ s.slots index = some d

/-- The machine gets to another place in the same block. -/
structure Advances (m : Machine) (names : Bindings Binding) (block : Nat) (code : List Instr)
    (locals : Bindings Datum) (history : History) (s s' : State) : Prop where
  reaches : m.Reaches s s'
  results : s.results <+: s'.results
  holds : s'.Holds names block code locals history

/-- The machine gets to where an operand stands for a word. -/
def Computes (m : Machine) (names : Bindings Binding) (block : Nat) (code : List Instr)
    (locals : Bindings Datum) (history : History) (s : State) (v : Value) (word : Word) : Prop :=
  ∃ s', m.Advances names block code locals history s s' ∧ m.word? s' v = some word

section

variable {m : Machine} {names : Bindings Binding} {block : Nat} {code code' : List Instr}
  {locals : Bindings Datum} {history history' : History} {s s₁ s₂ : State} {v : Value} {word : Word}

theorem word?_mono (h : s.results <+: s₁.results) (hv : m.word? s v = some word) :
    m.word? s₁ v = some word := by
  cases v with
  | number | bit | text | param | slot => exact hv
  | temp index kind =>
    rw [word?, getElem?_of_prefix h (Option.join_eq_some_iff.mp hv)]
    rfl

theorem data?_cons {vs : List Value} {d : Datum} {ds : List Datum}
    (hv : m.word? s v = some (.datum d)) (hvs : m.data? s vs = some ds) :
    m.data? s (v :: vs) = some (d :: ds) := by
  rw [data?, hv, hvs]
  rfl

theorem Advances.refl (hs : s.Holds names block code locals history) :
    m.Advances names block code locals history s s :=
  ⟨.refl s, List.prefix_refl _, hs⟩

theorem Advances.trans (h₁ : m.Advances names block code locals history s s₁)
    (h₂ : m.Advances names block code' locals history' s₁ s₂) :
    m.Advances names block code' locals history' s s₂ :=
  ⟨h₁.reaches.trans h₂.reaches, h₁.results.trans h₂.results, h₂.holds⟩

theorem Computes.of_advances (h : m.Advances names block code locals history s s₁)
    (hv : m.Computes names block code' locals history' s₁ v word) :
    m.Computes names block code' locals history' s v word := by
  obtain ⟨s₂, hadvances, hword⟩ := hv
  exact ⟨s₂, h.trans hadvances, hword⟩

theorem Computes.of_word (hs : s.Holds names block code locals history)
    (hv : m.word? s v = some word) : m.Computes names block code locals history s v word :=
  ⟨s, .refl hs, hv⟩

/-- The machine gets to where an operand stands for a value of the language, and the operand is of
its type. -/
structure Finds (m : Machine) (names : Bindings Binding) (block : Nat) (code : List Instr)
    (locals : Bindings Datum) (s : State) (v : Value) (d : Datum) (history : History) : Prop where
  computes : m.Computes names block code locals history s v (.datum d)
  fits : v.Fits d.ty

theorem Finds.of_advances {d : Datum} (h : m.Advances names block code locals history s s₁)
    (hv : m.Finds names block code' locals s₁ v d history') :
    m.Finds names block code' locals s v d history' :=
  ⟨.of_advances h hv.computes, hv.fits⟩

/-- The machine gets to where arguments stand for values of the language. -/
def FindsAll (m : Machine) (names : Bindings Binding) (block : Nat) (code : List Instr)
    (locals : Bindings Datum) (s : State) (vs : List Value) (ds : List Datum)
    (history : History) : Prop :=
  ∃ s', m.Advances names block code locals history s s' ∧ m.data? s' vs = some ds

/-- The next instruction is the one behind the code. -/
theorem step_eq {i : Instr} (hs : s.Holds names block code locals history)
    (hcode : code ++ [i] <+: m.function.code block) : m.step s = m.execute s i := by
  rw [step, hs.block, hs.length, getElem?_of_prefix hcode List.getElem?_concat_length]

theorem State.Holds.push {i : Instr} (hs : s.Holds names block code locals history)
    (result : Option Word) : (s.push result).Holds names block (code ++ [i]) locals history :=
  ⟨hs.block, by simp [State.push, hs.length], hs.history, hs.locals⟩

/-- An instruction that computes a word. -/
theorem Computes.emit {i : Instr} {kind : Kind} (hs : s.Holds names block code locals history)
    (hcode : code ++ [i] <+: m.function.code block)
    (hexec : m.execute s i = .running (s.push (some word))) :
    m.Computes names block (code ++ [i]) locals history s (.temp code.length kind) word := by
  refine ⟨s.push (some word), ⟨.of_step ?_, List.prefix_append _ _, hs.push _⟩, ?_⟩
  · rw [step_eq hs hcode, hexec]
  · rw [word?, State.push, ← hs.length, List.getElem?_concat_length]
    rfl

end

end Machine

/-! ## Operators -/

namespace Lowering

section

variable {m : Machine} {names : Bindings Binding} {block : Nat} {locals : Bindings Datum}
  {history : History} {s : Machine.State} {t t' : Tape} {v lhs rhs : Value} {x y : Float}

theorem emit_computes {i : Instr} {kind : Kind} {word : Word}
    (h : emit i kind t = (.ok v, t')) (ht : m.Contains block t')
    (hs : s.Holds names block t.code locals history)
    (hexec : m.execute s i = .running (s.push (some word))) :
    m.Computes names block t'.code locals history s v word := by
  obtain ⟨⟨⟩, rfl⟩ := Prod.mk.inj h
  exact .emit hs ht.code hexec

theorem arith_computes {op : Arith} (h : arith op lhs rhs t = (.ok v, t'))
    (ht : m.Contains block t') (hs : s.Holds names block t.code locals history)
    (hl : m.word? s lhs = some (.datum (.number x)))
    (hr : m.word? s rhs = some (.datum (.number y))) :
    m.Computes names block t'.code locals history s v (.datum (.number (op.apply x y))) := by
  unfold arith at h
  split at h
  · obtain ⟨⟨⟩, rfl⟩ := Prod.mk.inj h
    obtain ⟨⟨⟩⟩ := hl
    obtain ⟨⟨⟩⟩ := hr
    exact .of_word hs rfl
  · exact emit_computes h ht hs (by simp [Machine.execute, Machine.result?, hl, hr, Word.number?])

theorem compare_computes {relation : Comparison} (h : compare relation lhs rhs t = (.ok v, t'))
    (ht : m.Contains block t') (hs : s.Holds names block t.code locals history)
    (hl : m.word? s lhs = some (.datum (.number x)))
    (hr : m.word? s rhs = some (.datum (.number y))) :
    m.Computes names block t'.code locals history s v (.bit (relation.holds x y)) := by
  unfold compare at h
  split at h
  · obtain ⟨⟨⟩, rfl⟩ := Prod.mk.inj h
    obtain ⟨⟨⟩⟩ := hl
    obtain ⟨⟨⟩⟩ := hr
    exact .of_word hs rfl
  · exact emit_computes h ht hs (by simp [Machine.execute, Machine.result?, hl, hr, Word.number?])

theorem test_computes (h : test lhs t = (.ok v, t')) (ht : m.Contains block t')
    (hs : s.Holds names block t.code locals history)
    (hl : m.word? s lhs = some (.datum (.number x))) :
    m.Computes names block t'.code locals history s v (.bit (0 < x)) := by
  unfold test at h
  split at h
  · obtain ⟨⟨⟩, rfl⟩ := Prod.mk.inj h
    obtain ⟨⟨⟩⟩ := hl
    exact .of_word hs rfl
  · exact emit_computes h ht hs (by
      simp [Machine.execute, Machine.result?, hl, Word.number?, Comparison.holds])

theorem promote_computes {b : Bool} (h : promote lhs t = (.ok v, t')) (ht : m.Contains block t')
    (hs : s.Holds names block t.code locals history) (hl : m.word? s lhs = some (.bit b)) :
    m.Computes names block t'.code locals history s v (.datum (.number (truthNumber b))) := by
  unfold promote at h
  split at h
  · obtain ⟨⟨⟩, rfl⟩ := Prod.mk.inj h
    obtain ⟨⟨⟩⟩ := hl
    exact .of_word hs rfl
  · exact emit_computes h ht hs (by
      simp [Machine.execute, Machine.result?, hl, Word.bit?, truthNumber])

theorem operate_computes {op : Operator} (h : operate op lhs rhs t = (.ok v, t'))
    (ht : m.Contains block t') (hs : s.Holds names block t.code locals history)
    (hl : m.word? s lhs = some (.datum (.number x)))
    (hr : m.word? s rhs = some (.datum (.number y))) :
    m.Computes names block t'.code locals history s v (.datum (.number (op.value x y))) := by
  -- A comparison gives a bit, which is turned into a number.
  have hcomparison {relation : Comparison} {b : Bool} (hb : relation.holds x y = b)
      (h : (do promote (← compare relation lhs rhs)) t = (.ok v, t')) :
      m.Computes names block t'.code locals history s v (.datum (.number (truthNumber b))) := by
    obtain ⟨c, t₁, hcompare, hpromote⟩ := bind_eq_ok_iff.mp h
    obtain ⟨s₁, hadvances, hword⟩ := compare_computes hcompare
      (ht.of_extends ((promote_moves c).of_eq hpromote)) hs hl hr
    exact .of_advances hadvances (promote_computes hpromote ht hadvances.holds (hb ▸ hword))
  cases op with
  | add | sub | mul => exact arith_computes h ht hs hl hr
  | less | greater | equal | notEqual => exact hcomparison rfl h

theorem combine_follows {op : Operator} {l r : Datum} (h : combine op lhs rhs t = (.ok v, t'))
    (ht : m.Contains block t') (hs : s.Holds names block t.code locals history)
    (hl : m.word? s lhs = some (.datum l)) (hr : m.word? s rhs = some (.datum r))
    (hlhs : lhs.Fits l.ty) (hrhs : rhs.Fits r.ty) :
    Follows (m.Finds names block t'.code locals s v) (World.operate op l r history) := by
  unfold combine at h
  split at h
  · next hdouble =>
    rw [hlhs.isDouble_iff, hrhs.isDouble_iff] at hdouble
    cases l with
    | text => exact absurd hdouble.1 (by simp [Datum.ty])
    | number x =>
      cases r with
      | text => exact absurd hdouble.2 (by simp [Datum.ty])
      | number y =>
        obtain ⟨v', t₁, hok, hfits⟩ := operate_ok op lhs rhs t
        obtain ⟨⟨⟩, rfl⟩ := Prod.mk.inj (h.symm.trans hok)
        exact ⟨operate_computes h ht hs hl hr, hfits⟩
  · split at h
    · exact absurd (Prod.mk.inj h).1 (by simp)
    · split at h <;> exact absurd (Prod.mk.inj h).1 (by simp)

end

/-! ## Expressions -/

section

variable {m : Machine} {w : World} {outer : Outer} {names : Bindings Binding} {env : Env}
  {block : Nat} {locals : Bindings Datum} {history : History} {s : Machine.State} {t t' : Tape}
  {v : Value}

theorem readName_follows {ident : String} (hm : m.Linked w outer names)
    (henv : env.Within outer names) (h : readName env ident t = (.ok v, t'))
    (ht : m.Contains block t') (hs : s.Holds names block t.code locals history) :
    Follows (m.Finds names block t'.code locals s v) (w.read locals ident history) := by
  have hconstant := hm.constants ident
  unfold readName at h
  unfold World.read
  cases hbound : env.locals ident with
  | some b =>
    obtain ⟨hglobal, index, hslot, -⟩ := hm.locals ident b (henv.locals ident b hbound)
    rw [hbound] at h
    simp only [bind_apply, address_apply, hslot, Value.kind, ↓reduceIte, require_apply] at h
    cases hlocal : locals ident with
    | some d =>
      obtain ⟨index', hname, hvalue⟩ := hs.locals ident d hlocal
      obtain rfl := Option.some.inj ((henv.locals ident b hbound).symm.trans hname)
      obtain ⟨rfl, -⟩ := Value.slot.inj hslot
      simp only [Datum.isStorable_ty, ↓reduceIte] at h
      have hfits : v.Fits d.ty := by
        obtain ⟨⟨⟩, -⟩ := Prod.mk.inj h
        exact ⟨d.isStorable_ty, rfl⟩
      exact ⟨emit_computes h ht hs (by simp [Machine.execute, Machine.result?, hvalue]), hfits⟩
    | none =>
      -- Lowering knows the local, but it is not set: evaluation fails as well.
      rw [hglobal, Option.map_none] at hconstant
      rw [Option.map_eq_none_iff.mp hconstant.symm]
      trivial
  | none =>
    rw [hbound, henv.globals] at h
    cases hglobal : outer.globals ident with
    | none =>
      simp only [hglobal] at h
      exact absurd (Prod.mk.inj h).1 (by simp)
    | some b =>
      simp only [hglobal] at h
      obtain ⟨⟨⟩, rfl⟩ := Prod.mk.inj h
      cases hlocal : locals ident with
      | some d =>
        -- A local that is set later has the name of no constant.
        obtain ⟨_, hname, -⟩ := hs.locals ident d hlocal
        exact absurd (hm.locals ident _ hname).1 (by simp [hglobal])
      | none =>
        rw [hglobal, Option.map_some] at hconstant
        obtain ⟨x, hx, hvalue⟩ := Option.map_eq_some_iff.mp hconstant.symm
        rw [hx, ← hvalue]
        exact ⟨.of_word hs rfl, rfl, rfl⟩

/-- A call is made with the values of its arguments, and its operand, if it has one, stands for the
answer. -/
theorem emit_call_follows {callee : Signature} {values : List Value} {ds : List Datum}
    {result : Option Value} (hm : m.Linked w outer names) (hcallee : callee ∈ outer.signatures)
    (h : (do
      let result ← emit (.call callee.symbol callee.ret values) callee.ret.kind
      pure (if callee.ret.isStorable then some result else none)) t = (.ok result, t'))
    (ht : m.Contains block t') (hs : s.Holds names block t.code locals history)
    (hvalues : m.data? s values = some ds) :
    Follows (fun answer history' ↦ ∃ s', m.Advances names block t'.code locals history' s s' ∧
        ∀ v, result = some v → ∃ d, answer = some d ∧ m.word? s' v = some (.datum d) ∧ v.Fits d.ty)
      (w.call callee.ident ds history) := by
  obtain ⟨⟨⟩, rfl⟩ := Prod.mk.inj h
  have hanswer := hm.typed callee hcallee history ds
  generalize hgiven : w.answers history ⟨callee.ident, ds⟩ = answer at hanswer
  have hexec : m.execute s (.call callee.symbol callee.ret values) =
      .running { s.push (answer.map .datum) with history := history ++ [⟨callee.ident, ds⟩] } := by
    simp only [Machine.execute, hm.callee callee hcallee, hvalues, hm.answers, hs.history, hgiven]
  rw [World.call, hgiven]
  refine ⟨_, ⟨.of_step ((Machine.step_eq hs ht.code).trans hexec), List.prefix_append _ _,
    hs.block, by simp [Machine.State.push, hs.length], rfl, hs.locals⟩, fun v hv ↦ ?_⟩
  split at hv
  · next hstorable =>
    rw [if_pos hstorable] at hanswer
    obtain ⟨d, rfl, hty⟩ := Option.map_eq_some_iff.mp hanswer
    obtain rfl := Option.some.inj hv
    refine ⟨d, rfl, ?_, d.isStorable_ty, by rw [hty]; rfl⟩
    rw [Machine.word?, Machine.State.push, ← hs.length, List.getElem?_concat_length]
    rfl
  · exact absurd hv (by simp)

/-- What a call does, given what its arguments do. -/
theorem callWith_follows {ident : String} {args : List Expr} {result : Option Value}
    (hm : m.Linked w outer names) (henv : env.Within outer names)
    (hargs : ∀ {tys values t₁}, tys.length = args.length →
      arguments env ident args tys t = (.ok values, t₁) → m.Contains block t₁ →
      Follows (m.FindsAll names block t₁.code locals s values) (w.evalAll locals args history))
    (h : call env ident args t = (.ok result, t')) (ht : m.Contains block t') :
    Follows (fun answer history' ↦ ∃ s', m.Advances names block t'.code locals history' s s' ∧
        ∀ v, result = some v → ∃ d, answer = some d ∧ m.word? s' v = some (.datum d) ∧ v.Fits d.ty)
      ((do w.call ident (← w.evalAll locals args)) history) := by
  obtain ⟨callee, values, t₁, hcallee, harity, hvalues, hcall⟩ := call_eq_ok_iff.mp h
  have hmem : callee ∈ outer.signatures := henv.signatures ▸ List.mem_of_find?_eq_some hcallee
  have hident : callee.ident = ident := by simpa using List.find?_some hcallee
  have hextends : t₁.Extends t' := by
    obtain ⟨_, rfl⟩ := Prod.mk.inj hcall
    exact emit_moves (i := .call callee.symbol callee.ret values) rfl callee.ret.kind t₁
  refine (hargs harity hvalues (ht.of_extends hextends)).bind
    fun ds history₁ ⟨s₁, hadvances, hdata⟩ ↦ ?_
  have hfollows := emit_call_follows hm hmem hcall ht hadvances.holds hdata
  rw [hident] at hfollows
  exact hfollows.mono fun answer history₂ ⟨s₂, hrest, hanswer⟩ ↦
    ⟨s₂, hadvances.trans hrest, hanswer⟩

mutual

theorem expr_follows (hm : m.Linked w outer names) (henv : env.Within outer names) :
    ∀ (e : Expr) {v : Value} {t t' : Tape} {history : History} {s : Machine.State},
      expr env e t = (.ok v, t') → m.Contains block t' →
      s.Holds names block t.code locals history →
      Follows (m.Finds names block t'.code locals s v) (w.eval locals e history)
  | .number x, _, _, _, _, _, h, _, hs => by
    obtain ⟨⟨⟩, rfl⟩ := Prod.mk.inj h
    exact ⟨.of_word hs rfl, rfl, rfl⟩
  | .text contents, _, t, _, _, s, h, ht, hs => by
    obtain ⟨⟨⟩, rfl⟩ := Prod.mk.inj h
    have htext : m.word? s (.text t.symbols.texts.length) =
        some (.datum (.ofLiteral contents)) := by
      obtain ⟨rest, hrest⟩ := ht.texts
      rw [Machine.word?, ← hrest]
      simp [Datum.ofLiteral, Symbols.storedText]
    exact ⟨.of_word hs htext, rfl, rfl⟩
  | .name ident, _, _, _, _, _, h, ht, hs => by
    rw [World.eval]
    exact readName_follows hm henv h ht hs
  | .call ident args, v, t, t', history, s, h, ht, hs => by
    have hfollows := callWith_follows hm henv (fun hlength hvalues ht₁ ↦
      arguments_follows hm henv ident args hlength hvalues ht₁ hs) (expr_call_eq_ok_iff.mp h) ht
    rw [World.eval, ← bind_assoc]
    refine hfollows.bind fun answer history' ⟨s', hadvances, hanswer⟩ ↦ ?_
    obtain ⟨d, rfl, hword, hfits⟩ := hanswer v rfl
    exact ⟨⟨s', hadvances, hword⟩, hfits⟩
  | .binary op lhs rhs, v, t, t', history, s, h, ht, hs => by
    obtain ⟨l, t₁, hlhs, r, t₂, hrhs, hcombine⟩ := expr_binary_eq_ok_iff.mp h
    have ht₂ := ht.of_extends ((combine_moves op l r).of_eq hcombine)
    have ht₁ := ht₂.of_extends ((expr_moves env rhs).of_eq hrhs)
    rw [World.eval]
    refine (expr_follows hm henv lhs hlhs ht₁ hs).bind
      fun x history₁ ⟨⟨s₁, hadvances₁, hl⟩, hlfits⟩ ↦ ?_
    refine (expr_follows hm henv rhs hrhs ht₂ hadvances₁.holds).bind
      fun y history₂ ⟨⟨s₂, hadvances₂, hr⟩, hrfits⟩ ↦ ?_
    exact (combine_follows hcombine ht hadvances₂.holds (Machine.word?_mono hadvances₂.results hl)
      hr hlfits hrfits).mono fun d history' hd ↦ hd.of_advances (hadvances₁.trans hadvances₂)
termination_by structural e => e

theorem arguments_follows (hm : m.Linked w outer names) (henv : env.Within outer names)
    (ident : String) :
    ∀ (es : List Expr) {tys : List Ty} {values : List Value} {t t' : Tape} {history : History}
      {s : Machine.State}, tys.length = es.length →
      arguments env ident es tys t = (.ok values, t') → m.Contains block t' →
      s.Holds names block t.code locals history →
      Follows (m.FindsAll names block t'.code locals s values) (w.evalAll locals es history)
  | [], _, _, _, _, _, _, _, h, _, hs => by
    rw [arguments_nil] at h
    obtain ⟨⟨⟩, rfl⟩ := Prod.mk.inj h
    exact ⟨_, .refl hs, rfl⟩
  | e :: es, tys, values, t, t', history, s, hlength, h, ht, hs => by
    cases tys with
    | nil => exact absurd hlength (by simp)
    | cons ty tys =>
      obtain ⟨v, t₁, vs, hvalue, -, hvalues, rfl⟩ := arguments_cons_eq_ok_iff.mp h
      have ht₁ := ht.of_extends ((arguments_moves env ident es tys).of_eq hvalues)
      rw [World.evalAll]
      refine (expr_follows hm henv e hvalue ht₁ hs).bind
        fun d history₁ ⟨⟨s₁, hadvances₁, hd⟩, _⟩ ↦ ?_
      refine (arguments_follows hm henv ident es (Nat.succ.inj hlength) hvalues ht
        hadvances₁.holds).bind fun ds history₂ ⟨s₂, hadvances₂, hds⟩ ↦ ?_
      exact ⟨s₂, hadvances₁.trans hadvances₂,
        Machine.data?_cons (Machine.word?_mono hadvances₂.results hd) hds⟩
termination_by structural es => es

end

/-- A call whose value is dropped. -/
theorem call_follows {ident : String} {args : List Expr} {result : Option Value}
    (hm : m.Linked w outer names) (henv : env.Within outer names)
    (h : call env ident args t = (.ok result, t')) (ht : m.Contains block t')
    (hs : s.Holds names block t.code locals history) :
    Follows (fun _ history' ↦ ∃ s', m.Advances names block t'.code locals history' s s')
      ((do w.call ident (← w.evalAll locals args)) history) := by
  have hfollows := callWith_follows hm henv (fun hlength hvalues ht₁ ↦
    arguments_follows hm henv ident args hlength hvalues ht₁ hs) h ht
  exact hfollows.mono fun _ history' ⟨s', hadvances, _⟩ ↦ ⟨s', hadvances⟩

theorem condition_follows {cond : Expr} (hm : m.Linked w outer names)
    (henv : env.Within outer names) (h : condition env cond t = (.ok v, t'))
    (ht : m.Contains block t') (hs : s.Holds names block t.code locals history) :
    Follows (fun b history' ↦ m.Computes names block t'.code locals history' s v (.bit b))
      (w.holds locals cond history) := by
  obtain ⟨u, t₁, hvalue, hkind, htest⟩ := condition_eq_ok_iff.mp h
  refine (expr_follows hm henv cond hvalue (ht.of_extends ((test_moves u).of_eq htest)) hs).bind
    fun d history' ⟨⟨s₁, hadvances, hd⟩, hfits⟩ ↦ ?_
  cases d with
  | text contents => exact absurd (hfits.isDouble_iff.mp hkind) (by simp [Datum.ty])
  | number x => exact .of_advances hadvances (test_computes htest ht hadvances.holds hd)

end

end Lowering

end BlockCompiler
