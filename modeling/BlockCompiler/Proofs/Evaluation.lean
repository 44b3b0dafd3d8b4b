import BlockCompiler.Code
import BlockCompiler.ScopeTable

/-!
# Direct evaluation

What a body does, read off its tree. Evaluation knows of no code: the locals of a function are one
map from names to values, and the only effects are the calls that are made. The functions that are
called are not evaluated. What they return is given from outside, and may depend on all calls so
far.

## Loops

A bound on the number of rounds that one loop may take makes evaluation a function by recursion on
the tree; nothing else needs a bound. An evaluation that no bound finishes runs forever.
-/

namespace BlockCompiler

/-! ## Values and calls -/

/-- The values of the language. -/
inductive Datum where
  | number (x : Float)
  | text (contents : String)
deriving DecidableEq

def Datum.ty : Datum → Ty
  | number _ => .double
  | text _ => .string

theorem Datum.isStorable_ty (d : Datum) : d.ty.isStorable = true := by
  cases d <;> rfl

/-- A call, with the values of its arguments. -/
structure Event where
  callee : String
  args : List Datum
deriving DecidableEq

/-- The calls that were made, in their order. -/
abbrev History := List Event

/-- What a call returns, given the calls before it. There is no answer if it returns nothing. -/
abbrev Answers := History → Event → Option Datum

/-- Every call is answered as the function that is called was declared. -/
def Answers.Typed (answers : Answers) (signatures : List Signature) : Prop :=
  ∀ s ∈ signatures, ∀ history args,
    (answers history ⟨s.ident, args⟩).map Datum.ty = if s.ret.isStorable then some s.ret else none

/-- Why an evaluation cannot go on. -/
inductive Fault where
  /-- The name is that of a local that was not set. -/
  | unset (ident : String)
  /-- An operation is given a value that it is not made for. -/
  | mismatch
deriving DecidableEq

/-- An evaluation that makes calls. -/
abbrev Evaluation := StateT History (Except Fault)

/-! ## Expressions -/

/-- The value of a string literal, which ends before the first NUL character. -/
def Datum.ofLiteral (contents : String) : Datum :=
  .text (String.ofList (contents.toList.takeWhile (· ≠ '\x00')))

/-- The number that stands for a truth value. -/
def truthNumber (b : Bool) : Float := if b then 1 else 0

/-- The value of an operator. A comparison with something that is not a number fails. -/
def Operator.value : Operator → Float → Float → Float
  | add, x, y => x + y
  | sub, x, y => x - y
  | mul, x, y => x * y
  | less, x, y => truthNumber (x < y)
  | greater, x, y => truthNumber (y < x)
  | equal, x, y => truthNumber (x == y)
  | notEqual, x, y => truthNumber (x < y || y < x)

/-- What is known outside of a body: the global constants, and what calls return. -/
structure World where
  constants : Bindings Float
  answers : Answers

namespace World

variable (w : World)

def call (callee : String) (args : List Datum) : Evaluation (Option Datum) := fun history ↦
  .ok (w.answers history ⟨callee, args⟩, history ++ [⟨callee, args⟩])

/-- The value of a name: that of the local if it is set, else that of the global constant. -/
def read (locals : Bindings Datum) (ident : String) : Evaluation Datum :=
  match locals ident with
  | some d => pure d
  | none =>
    match w.constants ident with
    | some x => pure (.number x)
    | none => throw (.unset ident)

/-- An operator applied to two values, which have to be numbers. -/
def operate (op : Operator) : Datum → Datum → Evaluation Datum
  | .number x, .number y => pure (.number (op.value x y))
  | _, _ => throw .mismatch

mutual

/-- The value of an expression. -/
def eval (locals : Bindings Datum) : Expr → Evaluation Datum
  | .number x => pure (.number x)
  | .text contents => pure (.ofLiteral contents)
  | .name ident => w.read locals ident
  | .call callee args => do
    let ds ← evalAll locals args
    match ← w.call callee ds with
    | some d => pure d
    | none => throw .mismatch
  | .binary op lhs rhs => do
    let l ← eval locals lhs
    let r ← eval locals rhs
    operate op l r
termination_by structural e => e

/-- The values of arguments, from left to right. -/
def evalAll (locals : Bindings Datum) : List Expr → Evaluation (List Datum)
  | [] => pure []
  | e :: es => do
    let d ← eval locals e
    let ds ← evalAll locals es
    pure (d :: ds)
termination_by structural es => es

end

/-- A condition holds if its value is a number greater than zero. -/
def holds (locals : Bindings Datum) (cond : Expr) : Evaluation Bool := do
  match ← w.eval locals cond with
  | .number x => pure (0 < x)
  | .text _ => throw .mismatch

end World

/-! ## Statements -/

/-- How statements end. -/
inductive Ending where
  /-- Control goes on behind them. -/
  | done (locals : Bindings Datum) (history : History)
  | returned (value : Datum) (history : History)
  | fault (cause : Fault)
  /-- A loop takes more rounds than it may. -/
  | unfinished

namespace Ending

/-- Goes on where control does. -/
def andThen : Ending → (Bindings Datum → History → Ending) → Ending
  | done locals history, k => k locals history
  | returned value history, _ => returned value history
  | fault cause, _ => fault cause
  | unfinished, _ => unfinished

/-- Goes on with the value of an evaluation. -/
def after {α : Type} (m : Evaluation α) (history : History) (k : α → History → Ending) : Ending :=
  match m history with
  | .ok (a, history) => k a history
  | .error cause => fault cause

/-- What a body with this ending returns, and the calls that it has made. A body that control falls
off returns nothing. -/
def result? : Ending → Option (Option Datum × History)
  | done _ history => some (none, history)
  | returned value history => some (some value, history)
  | fault _ | unfinished => none

end Ending

/-- Goes round a loop. -/
def iterate (test : Bindings Datum → Evaluation Bool)
    (body : Bindings Datum → History → Ending) : Nat → Bindings Datum → History → Ending
  | 0, _, _ => .unfinished
  | rounds + 1, locals, history =>
    .after (test locals) history fun holds history ↦
      if holds then (body locals history).andThen (iterate test body rounds)
      else .done locals history

namespace World

variable (w : World) (rounds : Nat)

mutual

/-- Runs a statement. No loop may take more than the given number of rounds. -/
def run : Stmt → Bindings Datum → History → Ending
  | .assign ident value, locals, history =>
    .after (w.eval locals value) history fun d history ↦ .done (locals.bind ident d) history
  | .ret value, locals, history =>
    .after (w.eval locals value) history .returned
  | .ifThen cond body, locals, history =>
    .after (w.holds locals cond) history fun holds history ↦
      if holds then runAll body locals history else .done locals history
  | .ifElse cond body otherwise, locals, history =>
    .after (w.holds locals cond) history fun holds history ↦
      if holds then runAll body locals history else runAll otherwise locals history
  | .loop cond body, locals, history =>
    iterate (w.holds · cond) (fun locals history ↦ runAll body locals history) rounds locals history
  | .eval (.call callee args), locals, history =>
    .after (do w.call callee (← w.evalAll locals args)) history fun _ history ↦
      .done locals history
  | .eval value, locals, history =>
    .after (w.eval locals value) history fun _ history ↦ .done locals history
termination_by structural s => s

def runAll : List Stmt → Bindings Datum → History → Ending
  | [], locals, history => .done locals history
  | s :: rest, locals, history => (run s locals history).andThen (runAll rest)
termination_by structural ss => ss

end

end World

/-! ## More rounds -/

/-- The second ending is the first one, unless that is unfinished. -/
def Ending.Refines (e e' : Ending) : Prop := e = .unfinished ∨ e' = e

namespace Ending.Refines

variable {e e' : Ending} {k k' : Bindings Datum → History → Ending}

theorem refl (e : Ending) : e.Refines e := .inr rfl

theorem andThen (h : e.Refines e')
    (hk : ∀ locals history, (k locals history).Refines (k' locals history)) :
    (e.andThen k).Refines (e'.andThen k') := by
  rcases h with rfl | rfl
  · exact .inl rfl
  · cases e' with
    | done locals history => exact hk locals history
    | returned | fault | unfinished => exact refl _

theorem after {α : Type} {m : Evaluation α} {history : History} {k k' : α → History → Ending}
    (hk : ∀ a history, (k a history).Refines (k' a history)) :
    (Ending.after m history k).Refines (Ending.after m history k') := by
  unfold Ending.after
  split
  · exact hk _ _
  · exact refl _

theorem iterate {test : Bindings Datum → Evaluation Bool}
    (hk : ∀ locals history, (k locals history).Refines (k' locals history)) (n : Nat) :
    ∀ n' ≥ n, ∀ locals history,
      (iterate test k n locals history).Refines (iterate test k' n' locals history) := by
  induction n with
  | zero => exact fun _ _ _ _ ↦ .inl rfl
  | succ n ih =>
    intro n' hle locals history
    obtain ⟨n', rfl⟩ : ∃ n₁, n' = n₁ + 1 := ⟨n' - 1, by omega⟩
    refine after fun holds history' ↦ ?_
    split
    · exact (hk locals history').andThen (ih n' (by omega))
    · exact refl _

end Ending.Refines

namespace World

variable (w : World) {rounds rounds' : Nat}

mutual

theorem run_refines (h : rounds ≤ rounds') : ∀ s locals history,
    (w.run rounds s locals history).Refines (w.run rounds' s locals history)
  | .assign _ _, _, _ => .after fun _ _ ↦ .refl _
  | .ret _, _, _ => .after fun _ _ ↦ .refl _
  | .ifThen _ body, locals, _ => .after fun holds history ↦ by
    cases holds with
    | false => exact .refl _
    | true => exact runAll_refines h body locals history
  | .ifElse _ body otherwise, locals, _ => .after fun holds history ↦ by
    cases holds with
    | false => exact runAll_refines h otherwise locals history
    | true => exact runAll_refines h body locals history
  | .loop _ body, locals, history =>
    .iterate (runAll_refines h body) rounds rounds' h locals history
  | .eval value, locals, history => by
    -- A call whose value is dropped is a case of its own.
    rw [run.eq_def, run.eq_def]
    cases value with
    | call | number | text | name | binary => exact .after fun _ _ ↦ .refl _
termination_by structural s => s

/-- A bound that suffices gives the same ending as every greater one. -/
theorem runAll_refines (h : rounds ≤ rounds') : ∀ ss locals history,
    (w.runAll rounds ss locals history).Refines (w.runAll rounds' ss locals history)
  | [], _, _ => .refl _
  | s :: rest, locals, history =>
    (run_refines h s locals history).andThen (runAll_refines h rest)
termination_by structural ss => ss

end

end World

/-! ## Bodies -/

/-- The locals of a body before its first statement: its parameters. -/
def paramLocals (head : Prototype) (args : List Datum) : Bindings Datum :=
  ((head.params.map Param.ident).zip args).foldl (fun locals p ↦ locals.bind p.1 p.2) fun _ ↦ none

namespace World

variable (w : World) (head : Prototype) (ss : List Stmt) (args : List Datum)

def runBody (rounds : Nat) : Ending := w.runAll rounds ss (paramLocals head args) []

/-- The body returns, with or without a value, after it has made the given calls. -/
def Returns (value : Option Datum) (history : History) : Prop :=
  ∃ rounds, (w.runBody head ss args rounds).result? = some (value, history)

/-- The body runs forever. -/
def Diverges : Prop := ∀ rounds, w.runBody head ss args rounds = .unfinished

variable {w head ss args} {value value' : Option Datum} {history history' : History}

/-- A body returns one result, after the same calls, whatever the bound. -/
theorem Returns.unique (h : w.Returns head ss args value history)
    (h' : w.Returns head ss args value' history') : value = value' ∧ history = history' := by
  obtain ⟨rounds, h⟩ := h
  obtain ⟨rounds', h'⟩ := h'
  -- Neither bound exceeds the greater one, so that one run gives both results.
  have hmax (n : Nat) (hle : n ≤ max rounds rounds') {r : Option Datum × History}
      (hr : (w.runBody head ss args n).result? = some r) :
      (w.runBody head ss args (max rounds rounds')).result? = some r := by
    rcases w.runAll_refines hle ss (paramLocals head args) [] with hrun | hrun
    · rw [runBody, hrun] at hr
      exact absurd hr (by simp [Ending.result?])
    · rw [runBody, hrun]
      exact hr
  have hsame := (hmax rounds (Nat.le_max_left _ _) h).symm.trans
    (hmax rounds' (Nat.le_max_right _ _) h')
  exact Prod.mk.inj (Option.some.inj hsame)

end World

/-! ## Constants -/

/-- The global constants behind a declaration. -/
def Decl.constants (known : Bindings Float) : Decl → Bindings Float
  | .constant ident (.number x) => known.bind ident x
  | .constant ident (.name other) =>
    match known other with
    | some x => known.bind ident x
    | none => known
  | _ => known

/-- The global constants in force behind declarations. -/
def constantsAfter (ds : List Decl) : Bindings Float := ds.foldl Decl.constants fun _ ↦ none

end BlockCompiler
