/-!
# Scopes

There are two tiers of names: the globals, and for each function its locals. Scopes do not nest
further, and a name is looked up among the locals first. A scope is represented by its lookup
function, so that two tables with the same bindings are equal.
-/

namespace BlockCompiler

/-- The owner of a scope. Functions are numbered in the order of their declaration. -/
inductive Owner where
  | global
  | function (id : Nat)
deriving DecidableEq, Repr

/-- What the names of one scope are bound to. -/
abbrev Bindings (β : Type) := String → Option β

/-- Binds a name, in place of any earlier binding. -/
def Bindings.bind {β : Type} (t : Bindings β) (name : String) (b : β) : Bindings β :=
  fun x ↦ if x = name then some b else t x

structure ScopeTable (β : Type) where
  scope : Owner → Bindings β

namespace ScopeTable

variable {β : Type}

/-- The table without bindings. -/
def empty : ScopeTable β := ⟨fun _ _ ↦ none⟩

def replace (t : ScopeTable β) (owner : Owner) (bindings : Bindings β) : ScopeTable β :=
  ⟨fun o ↦ if o = owner then bindings else t.scope o⟩

def bind (t : ScopeTable β) (owner : Owner) (name : String) (b : β) : ScopeTable β :=
  t.replace owner ((t.scope owner).bind name b)

/-- Starts the scope of a function afresh. -/
def enter (t : ScopeTable β) (id : Nat) : ScopeTable β := t.replace (.function id) fun _ ↦ none

/-- Discards the scope of a function. -/
def exit (t : ScopeTable β) (id : Nat) : ScopeTable β := t.replace (.function id) fun _ ↦ none

/-- What a name is bound to in the scope of an owner. -/
def get? (t : ScopeTable β) (owner : Owner) (name : String) : Option β := t.scope owner name

/-- What a name means within a function, or outside of all functions: the local binding if there is
one, else the global one, with the owner of the scope in which it was found. -/
def resolve? (t : ScopeTable β) (within : Option Nat) (name : String) : Option (Owner × β) :=
  let localBinding := within.bind fun id ↦ (t.get? (.function id) name).map (.function id, ·)
  localBinding <|> (t.get? .global name).map (.global, ·)

/-! ## What an operation changes -/

theorem get?_empty (owner : Owner) (name : String) :
    (empty : ScopeTable β).get? owner name = none := rfl

theorem get?_replace (t : ScopeTable β) (o owner : Owner) (bindings : Bindings β) :
    (t.replace o bindings).get? owner = if owner = o then bindings else t.get? owner := rfl

/-- Binding a name changes what this name is bound to in this scope, and nothing else. -/
theorem get?_bind (t : ScopeTable β) (o owner : Owner) (x name : String) (b : β) :
    (t.bind o x b).get? owner name =
      if owner = o ∧ name = x then some b else t.get? owner name := by
  rw [bind, get?_replace]
  by_cases h : owner = o
  · subst h
    simp [Bindings.bind, get?]
  · simp [h]

/-- Entering a function empties its scope and no other. -/
theorem get?_enter (t : ScopeTable β) (id : Nat) (owner : Owner) (name : String) :
    (t.enter id).get? owner name = if owner = .function id then none else t.get? owner name := by
  rw [enter, get?_replace]
  split <;> rfl

/-- Leaving a function empties its scope and no other. -/
theorem get?_exit (t : ScopeTable β) (id : Nat) (owner : Owner) (name : String) :
    (t.exit id).get? owner name = if owner = .function id then none else t.get? owner name :=
  get?_enter t id owner name

/-- Putting back the scope that is there changes nothing. -/
theorem replace_get? (t : ScopeTable β) (owner : Owner) : t.replace owner (t.get? owner) = t := by
  rcases t with ⟨scope⟩
  simp only [replace, ScopeTable.mk.injEq]
  funext o
  split
  · next h => subst h; rfl
  · rfl

end ScopeTable

end BlockCompiler
