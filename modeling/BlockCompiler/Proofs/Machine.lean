import BlockCompiler.Proofs.Evaluation
import BlockCompiler.Proofs.Frame

/-!
# Running blocks

A machine runs the blocks of one function of a module. It starts at the entry with empty slots, and
it goes from block to block until it returns. As in direct evaluation, what a called function
returns is given from outside.

No value outlives its block. So a state records the results of the block at hand only, in the order
of its instructions, and the number of the results is the place of the next instruction.
-/

namespace BlockCompiler

/-- What an instruction computes with: the values of the language, and bits. -/
inductive Word where
  | datum (d : Datum)
  | bit (b : Bool)

namespace Word

/-- The value of the language, if the word is one. -/
def datum? : Word → Option Datum
  | datum d => some d
  | bit _ => none

def number? : Word → Option Float
  | datum (.number x) => some x
  | _ => none

def bit? : Word → Option Bool
  | bit b => some b
  | datum _ => none

end Word

namespace Machine

structure State where
  block : Nat
  /-- The results of the instructions of the block that were executed, if they have one. -/
  results : List (Option Word)
  slots : Nat → Option Datum
  history : History

namespace State

/-- The state at the entry of a function. -/
def start : State := ⟨0, [], fun _ ↦ none, []⟩

/-- The state behind an instruction. -/
def push (s : State) (result : Option Word) : State := { s with results := s.results ++ [result] }

/-- The state at the start of a block. -/
def enter (s : State) (block : Nat) : State := { s with block, results := [] }

/-- The state after a slot was written. -/
def write (s : State) (index : Nat) (d : Datum) : State :=
  { s with slots := fun i ↦ if i = index then some d else s.slots i }

end State

/-- What comes of the execution of an instruction. -/
inductive Outcome where
  | running (s : State)
  | returned (value : Option Datum) (history : History)
  /-- Control has reached an instruction that it should not reach. -/
  | trapped
  /-- An operand is not there, or not as the instruction needs it. -/
  | stuck

end Machine

/-- A function with what its instructions refer to. -/
structure Machine where
  function : Function
  texts : List TextConstant
  signatures : List Signature
  args : List Datum
  answers : Answers

namespace Machine

variable (m : Machine)

/-- The word that an operand stands for. An address stands for none. -/
def word? (s : State) : Value → Option Word
  | .number x => some (.datum (.number x))
  | .bit b => some (.bit b)
  | .text index => m.texts[index]?.map fun t ↦ .datum (.text t.contents)
  | .param index _ => m.args[index]?.map .datum
  | .slot _ _ => none
  | .temp index _ => s.results[index]?.join

/-- The values that arguments stand for. -/
def data? (s : State) : List Value → Option (List Datum)
  | [] => some []
  | v :: vs => do
    let d ← (← m.word? s v).datum?
    let ds ← data? s vs
    pure (d :: ds)

/-- The result of an instruction that computes a word from numbers and bits. -/
def result? (s : State) : Instr → Option Word
  | .arith op lhs rhs => do
    let x ← (← m.word? s lhs).number?
    let y ← (← m.word? s rhs).number?
    pure (.datum (.number (op.apply x y)))
  | .compare relation lhs rhs => do
    let x ← (← m.word? s lhs).number?
    let y ← (← m.word? s rhs).number?
    pure (.bit (relation.holds x y))
  | .test value => do
    let x ← (← m.word? s value).number?
    pure (.bit (Comparison.greater.holds x 0))
  | .promote value => do
    let b ← (← m.word? s value).bit?
    pure (.datum (.number (if b then 1 else 0)))
  | .load (.slot index _) _ => do
    let d ← s.slots index
    pure (.datum d)
  | _ => none

def execute (s : State) : Instr → Outcome
  | .store value (.slot index _) =>
    match (m.word? s value).bind Word.datum? with
    | some d => .running ((s.push none).write index d)
    | none => .stuck
  | .call symbol _ args =>
    match m.signatures.find? (·.symbol = symbol), m.data? s args with
    | some callee, some ds =>
      let event := ⟨callee.ident, ds⟩
      .running { s.push ((m.answers s.history event).map .datum) with
        history := s.history ++ [event] }
    | _, _ => .stuck
  | .ret none => .returned none s.history
  | .ret (some value) =>
    match (m.word? s value).bind Word.datum? with
    | some d => .returned (some d) s.history
    | none => .stuck
  | .jump target => .running (s.enter target)
  | .branch cond ifTrue ifFalse =>
    match (m.word? s cond).bind Word.bit? with
    | some b => .running (s.enter (if b then ifTrue else ifFalse))
    | none => .stuck
  | .unreachable => .trapped
  | i =>
    match m.result? s i with
    | some word => .running (s.push (some word))
    | none => .stuck

def step (s : State) : Outcome :=
  match (m.function.code s.block)[s.results.length]? with
  | some i => m.execute s i
  | none => .stuck

/-- Executes up to the given number of instructions. -/
def exec : Nat → State → Outcome
  | 0, s => .running s
  | n + 1, s =>
    match m.step s with
    | .running s' => exec n s'
    | o => o

/-- The machine returns, with or without a value, after it has made the given calls. -/
def Returns (value : Option Datum) (history : History) : Prop :=
  ∃ n, m.exec n .start = .returned value history

/-- The machine runs forever: it neither returns nor does anything else that ends a run. -/
def Diverges : Prop := ∀ n, ∃ s, m.exec n .start = .running s

/-! ## Reaching states -/

/-- The machine gets from one state to another. -/
def Reaches (s s' : State) : Prop := ∃ n, m.exec n s = .running s'

/-- The machine executes at least the given number of instructions. -/
def Runs (rounds : Nat) (s : State) : Prop := ∃ n, rounds ≤ n ∧ ∃ s', m.exec n s = .running s'

variable {m} {s s₁ s₂ : State} {k : Nat}

theorem exec_add {n : Nat} (h : m.exec n s = .running s₁) (n' : Nat) :
    m.exec (n + n') s = m.exec n' s₁ := by
  -- The induction follows the first run, whose start moves on with every step.
  induction n generalizing s with
  | zero =>
    obtain rfl := Outcome.running.inj h
    rw [Nat.zero_add]
  | succ n ih =>
    rw [exec] at h
    rw [Nat.succ_add, exec]
    cases hstep : m.step s with
    | running s' =>
      rw [hstep] at h
      exact ih h
    | returned | trapped | stuck =>
      rw [hstep] at h
      exact absurd h (by simp)

/-- A run passes through a state at every number of instructions. -/
theorem exists_exec_of_le {n n' : Nat} (h : m.exec n' s = .running s₁) (hle : n ≤ n') :
    ∃ s', m.exec n s = .running s' := by
  induction n generalizing s n' with
  | zero => exact ⟨s, rfl⟩
  | succ n ih =>
    obtain ⟨k, rfl⟩ : ∃ k, n' = k + 1 := ⟨n' - 1, by omega⟩
    rw [exec] at h ⊢
    cases hstep : m.step s with
    | running s' =>
      rw [hstep] at h
      exact ih h (by omega)
    | returned | trapped | stuck =>
      rw [hstep] at h
      exact absurd h (by simp)

theorem Reaches.refl (s : State) : m.Reaches s s := ⟨0, rfl⟩

theorem Reaches.of_step (h : m.step s = .running s₁) : m.Reaches s s₁ := ⟨1, by rw [exec, h]; rfl⟩

theorem Reaches.trans (h₁ : m.Reaches s s₁) (h₂ : m.Reaches s₁ s₂) : m.Reaches s s₂ := by
  obtain ⟨n₁, h₁⟩ := h₁
  obtain ⟨n₂, h₂⟩ := h₂
  exact ⟨n₁ + n₂, by rw [exec_add h₁, h₂]⟩

theorem Runs.zero (s : State) : m.Runs 0 s := ⟨0, Nat.le_refl 0, s, rfl⟩

theorem Runs.le {k' : Nat} (h : m.Runs k' s) (hle : k ≤ k') : m.Runs k s := by
  obtain ⟨n, hn, hrun⟩ := h
  exact ⟨n, Nat.le_trans hle hn, hrun⟩

theorem Runs.of_reaches (h : m.Reaches s s₁) (hruns : m.Runs k s₁) : m.Runs k s := by
  obtain ⟨n, h⟩ := h
  obtain ⟨n', hn', s', hrun⟩ := hruns
  exact ⟨n + n', by omega, s', by rw [exec_add h, hrun]⟩

theorem Runs.step (h : m.step s = .running s₁) (hruns : m.Runs k s₁) : m.Runs (k + 1) s := by
  obtain ⟨n, hn, s', hrun⟩ := hruns
  refine ⟨n + 1, by omega, s', ?_⟩
  rw [exec, h]
  exact hrun

theorem Diverges.of_runs (h : ∀ k, m.Runs k .start) : m.Diverges := by
  intro n
  obtain ⟨n', hle, s', hrun⟩ := h n
  exact exists_exec_of_le hrun hle

theorem Returns.of_reaches {value : Option Datum} {history : History}
    (h : m.Reaches .start s) (hstep : m.step s = .returned value history) :
    m.Returns value history := by
  obtain ⟨n, h⟩ := h
  exact ⟨n + 1, by rw [exec_add h, exec, hstep]⟩

end Machine

end BlockCompiler
