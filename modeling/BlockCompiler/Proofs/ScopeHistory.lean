import BlockCompiler.ScopeTable
import Mathlib.Data.List.Induction

/-!
# Scopes and their history

What a name is bound to can be read off the operations that led to a scope table: it is what the
name was bound to last, unless the function was entered or left since then
(`ScopeChange.LastBound`). The operations may come in any order. A name may be bound in a function
that was never entered, and a function may be entered twice or left twice.

A scope table is represented by its lookups. Tables of tables, where the table of an owner is
created with its first binding and is removed when the function is left, have the same lookups
(`NestedScopes.toScopeTable_ofHistory`): an owner without a table and one with an empty table are
told apart by none of them.
-/

namespace BlockCompiler

variable {β : Type}

/-- An operation on scopes. -/
inductive ScopeChange (β : Type) where
  | bind (owner : Owner) (name : String) (b : β)
  | enter (id : Nat)
  | exit (id : Nat)

namespace ScopeChange

/-! ## Histories -/

/-- The operation empties the scope of the owner. Nothing empties the global scope. -/
def Clears (o : ScopeChange β) (owner : Owner) : Prop :=
  ∃ id, owner = .function id ∧ (o = .enter id ∨ o = .exit id)

/-- The operation binds the name in the scope of the owner or empties this scope. -/
def Touches (o : ScopeChange β) (owner : Owner) (name : String) : Prop :=
  (∃ b, o = .bind owner name b) ∨ o.Clears owner

/-- The last operation that binds the name in the scope of the owner gives it the value, and no
later one empties this scope. -/
def LastBound (history : List (ScopeChange β)) (owner : Owner) (name : String) (b : β) : Prop :=
  ∃ before after, history = before ++ .bind owner name b :: after ∧
    ∀ o ∈ after, ¬o.Touches owner name

variable {history : List (ScopeChange β)} {o : ScopeChange β} {owner : Owner} {name : String}
  {b : β}

theorem not_lastBound_nil : ¬LastBound [] owner name b := by
  rintro ⟨before, after, h, -⟩
  simp at h

theorem lastBound_concat_iff : LastBound (history ++ [o]) owner name b ↔
    o = .bind owner name b ∨ LastBound history owner name b ∧ ¬o.Touches owner name := by
  constructor
  · rintro ⟨before, after, h, hafter⟩
    induction after using List.reverseRecOn with
    | nil => exact .inl (List.append_inj_right' h rfl |> List.singleton_inj.mp)
    | append_singleton after last _ =>
      rw [← List.cons_append, ← List.append_assoc] at h
      obtain ⟨hhistory, hlast⟩ := List.append_inj' h rfl
      obtain rfl := List.singleton_inj.mp hlast
      obtain ⟨hafter, hlast⟩ := List.forall_mem_append.mp hafter
      exact .inr ⟨⟨before, after, hhistory, hafter⟩, hlast o (List.mem_singleton_self o)⟩
  · rintro (rfl | ⟨⟨before, after, rfl, hafter⟩, ho⟩)
    · exact ⟨history, [], rfl, nofun⟩
    · refine ⟨before, after ++ [o], by simp, ?_⟩
      exact List.forall_mem_append.mpr ⟨hafter, List.forall_mem_singleton.mpr ho⟩

/-- A global is bound to what its name was bound to last. -/
theorem lastBound_global_iff : LastBound history .global name b ↔
    ∃ before after, history = before ++ .bind .global name b :: after ∧
      ∀ b', .bind .global name b' ∉ after := by
  refine exists_congr fun before ↦ exists_congr fun after ↦ and_congr_right fun _ ↦ ?_
  constructor
  · exact fun h b' hmem ↦ h _ hmem (.inl ⟨b', rfl⟩)
  · rintro h o ho (⟨b', rfl⟩ | ⟨id, hid, -⟩)
    · exact h b' ho
    · exact nomatch hid

end ScopeChange

/-! ## Scope tables -/

namespace ScopeTable

variable {t : ScopeTable β} {o : ScopeChange β} {owner : Owner} {name : String} {b : β}

def change (t : ScopeTable β) : ScopeChange β → ScopeTable β
  | .bind owner name b => t.bind owner name b
  | .enter id => t.enter id
  | .exit id => t.exit id

/-- The table after operations on the table without bindings. -/
def ofHistory (history : List (ScopeChange β)) : ScopeTable β := history.foldl change empty

theorem ofHistory_concat (history : List (ScopeChange β)) (o : ScopeChange β) :
    ofHistory (history ++ [o]) = (ofHistory history).change o := by
  rw [ofHistory, List.foldl_append]
  rfl

/-- An operation binds a name to its value, or unbinds it if it empties its scope, or leaves it
alone. -/
theorem get?_change_eq_some_iff : (t.change o).get? owner name = some b ↔
    o = .bind owner name b ∨ t.get? owner name = some b ∧ ¬o.Touches owner name := by
  cases o with
  | bind owner' name' b' =>
    rw [change, get?_bind]
    split
    · next h =>
      obtain ⟨rfl, rfl⟩ := h
      have htouches : (ScopeChange.bind owner name b').Touches owner name := .inl ⟨b', rfl⟩
      simp [htouches]
    · next h =>
      have htouches : ¬(ScopeChange.bind owner' name' b').Touches owner name := by
        rintro (⟨_, ⟨⟩⟩ | ⟨_, _, ⟨⟨⟩⟩ | ⟨⟨⟩⟩⟩)
        exact h ⟨rfl, rfl⟩
      have hne : ScopeChange.bind owner' name' b' ≠ .bind owner name b := by
        rintro ⟨⟩
        exact h ⟨rfl, rfl⟩
      simp [htouches, hne]
  | enter id =>
    have htouches : (ScopeChange.enter id : ScopeChange β).Touches owner name ↔
        owner = .function id := by
      simp [ScopeChange.Touches, ScopeChange.Clears, eq_comm]
    rw [change, get?_enter, htouches]
    split <;> simp_all
  | exit id =>
    have htouches : (ScopeChange.exit id : ScopeChange β).Touches owner name ↔
        owner = .function id := by
      simp [ScopeChange.Touches, ScopeChange.Clears, eq_comm]
    rw [change, get?_exit, htouches]
    split <;> simp_all

theorem get?_ofHistory_eq_some_iff {history : List (ScopeChange β)} :
    (ofHistory history).get? owner name = some b ↔ ScopeChange.LastBound history owner name b := by
  induction history using List.reverseRecOn with
  | nil => exact iff_of_false nofun ScopeChange.not_lastBound_nil
  | append_singleton history o ih =>
    rw [ofHistory_concat, get?_change_eq_some_iff, ih, ScopeChange.lastBound_concat_iff]

/-- Within a function, a name means its local if there is one, and else its global. -/
theorem resolve?_some_eq_some_iff {id : Nat} : t.resolve? (some id) name = some (owner, b) ↔
    owner = .function id ∧ t.get? (.function id) name = some b ∨
      owner = .global ∧ t.get? (.function id) name = none ∧ t.get? .global name = some b := by
  rw [resolve?, Option.bind_some]
  cases t.get? (.function id) name with
  | some b' => simp [eq_comm]
  | none => cases t.get? .global name <;> simp [eq_comm]

/-- Outside of all functions, a name means its global. -/
theorem resolve?_none_eq_some_iff : t.resolve? none name = some (owner, b) ↔
    owner = .global ∧ t.get? .global name = some b := by
  rw [resolve?, Option.bind_none]
  cases t.get? .global name <;> simp [eq_comm]

end ScopeTable

/-! ## Tables of tables -/

deriving instance Hashable for Owner

/-- A table for each owner that has one, and in it what the names are bound to. -/
structure NestedScopes (β : Type) where
  tables : Std.HashMap Owner (Std.HashMap String β)

namespace NestedScopes

/-- The global scope, without bindings. -/
def new : NestedScopes β := ⟨(∅ : Std.HashMap Owner (Std.HashMap String β)).insert .global ∅⟩

/-- Gives a function an empty table, in place of any earlier one. -/
def enter (t : NestedScopes β) (id : Nat) : NestedScopes β := ⟨t.tables.insert (.function id) ∅⟩

def exit (t : NestedScopes β) (id : Nat) : NestedScopes β := ⟨t.tables.erase (.function id)⟩

/-- Binds a name in the table of an owner, which is created if there is none. -/
def bind (t : NestedScopes β) (owner : Owner) (name : String) (b : β) : NestedScopes β :=
  ⟨t.tables.insert owner ((t.tables.getD owner ∅).insert name b)⟩

/-- What a name is bound to in the table of an owner, if there is one. -/
def get? (t : NestedScopes β) (owner : Owner) (name : String) : Option β :=
  t.tables[owner]?.bind (·[name]?)

/-- The first table that binds the name, of that of the function, if there is one, and that of the
globals. -/
def resolve? (t : NestedScopes β) (within : Option Nat) (name : String) : Option (Owner × β) :=
  ((within.map Owner.function).toList ++ [Owner.global]).findSome? fun owner ↦
    (t.get? owner name).map (owner, ·)

def change (t : NestedScopes β) : ScopeChange β → NestedScopes β
  | .bind owner name b => t.bind owner name b
  | .enter id => t.enter id
  | .exit id => t.exit id

/-- The tables after operations on new ones. -/
def ofHistory (history : List (ScopeChange β)) : NestedScopes β := history.foldl change new

/-! ### The same lookups -/

theorem get?_new (owner : Owner) (name : String) :
    (new : NestedScopes β).get? owner name = none := by
  rw [get?, new, Std.HashMap.getElem?_insert]
  split <;> simp

theorem get?_enter (t : NestedScopes β) (id : Nat) (owner : Owner) (name : String) :
    (t.enter id).get? owner name = if owner = .function id then none else t.get? owner name := by
  rw [get?, enter, Std.HashMap.getElem?_insert]
  by_cases h : owner = .function id
  · simp [h]
  · rw [if_neg (by simpa using Ne.symm h), if_neg h, get?]

theorem get?_exit (t : NestedScopes β) (id : Nat) (owner : Owner) (name : String) :
    (t.exit id).get? owner name = if owner = .function id then none else t.get? owner name := by
  rw [get?, exit, Std.HashMap.getElem?_erase]
  by_cases h : owner = .function id
  · simp [h]
  · rw [if_neg (by simpa using Ne.symm h), if_neg h, get?]

/-- A table that is created for a binding has no other. -/
theorem get?_bind (t : NestedScopes β) (o owner : Owner) (x name : String) (b : β) :
    (t.bind o x b).get? owner name =
      if owner = o ∧ name = x then some b else t.get? owner name := by
  rw [get?, bind, Std.HashMap.getElem?_insert]
  by_cases howner : owner = o
  · subst howner
    have hold : (t.tables.getD owner ∅)[name]? = t.get? owner name := by
      rw [get?, Std.HashMap.getD_eq_getD_getElem?]
      cases t.tables[owner]? with
      | none => exact Std.HashMap.getElem?_empty
      | some table => rfl
    rw [if_pos (beq_self_eq_true owner), Option.bind_some, Std.HashMap.getElem?_insert, hold]
    refine if_congr ?_ rfl rfl
    rw [beq_iff_eq, eq_comm, and_iff_right rfl]
  · rw [if_neg (by simpa using Ne.symm howner), if_neg fun h ↦ howner h.1, get?]

theorem resolve?_some (t : NestedScopes β) (id : Nat) (name : String) :
    t.resolve? (some id) name =
      ((t.get? (.function id) name).map (Owner.function id, ·) <|>
        (t.get? .global name).map (Owner.global, ·)) := by
  cases hlocal : t.get? (.function id) name <;> simp [resolve?, hlocal]

/-- The scope table with the lookups of the tables. -/
def toScopeTable (t : NestedScopes β) : ScopeTable β := ⟨t.get?⟩

theorem get?_toScopeTable (t : NestedScopes β) : t.toScopeTable.get? = t.get? := rfl

theorem resolve?_toScopeTable (t : NestedScopes β) (within : Option Nat) (name : String) :
    t.toScopeTable.resolve? within name = t.resolve? within name := by
  cases within with
  | none => simp [resolve?, ScopeTable.resolve?, get?_toScopeTable]
  | some id => rw [resolve?_some, ScopeTable.resolve?, get?_toScopeTable, Option.bind_some]

theorem toScopeTable_new : (new : NestedScopes β).toScopeTable = .empty :=
  congrArg ScopeTable.mk (funext₂ get?_new)

/-- An operation changes the lookups in the tables as it changes the scope table. -/
theorem toScopeTable_change (t : NestedScopes β) (o : ScopeChange β) :
    (t.change o).toScopeTable = t.toScopeTable.change o := by
  refine congrArg ScopeTable.mk (funext₂ fun owner name ↦ ?_)
  cases o with
  | bind o x b =>
    exact (t.get?_bind o owner x name b).trans (t.toScopeTable.get?_bind o owner x name b).symm
  | enter id =>
    exact (t.get?_enter id owner name).trans (t.toScopeTable.get?_enter id owner name).symm
  | exit id =>
    exact (t.get?_exit id owner name).trans (t.toScopeTable.get?_exit id owner name).symm

theorem toScopeTable_ofHistory (history : List (ScopeChange β)) :
    (ofHistory history).toScopeTable = .ofHistory history := by
  induction history using List.reverseRecOn with
  | nil => exact toScopeTable_new
  | append_singleton history o ih =>
    rw [ScopeTable.ofHistory_concat, ← ih, ← toScopeTable_change, ofHistory, List.foldl_append]
    rfl

end NestedScopes

/-- After any operations on a new table, a name is bound to what it was bound to last, unless its
scope was emptied since then, which never happens to the global scope. Within a function it means
its local if it is bound there, and else its global, and outside of all functions its global. Tables
of tables give the same answers. -/
theorem scopes_are_history (history : List (ScopeChange β)) :
    let t := ScopeTable.ofHistory history
    let nested := NestedScopes.ofHistory history
    (∀ owner name b, t.get? owner name = some b ↔
        ScopeChange.LastBound history owner name b) ∧
      (∀ name b, t.get? .global name = some b ↔
        ∃ before after, history = before ++ .bind .global name b :: after ∧
          ∀ b', .bind .global name b' ∉ after) ∧
      (∀ id name owner b, t.resolve? (some id) name = some (owner, b) ↔
        owner = .function id ∧ ScopeChange.LastBound history (.function id) name b ∨
          owner = .global ∧ (∀ b', ¬ScopeChange.LastBound history (.function id) name b') ∧
            ScopeChange.LastBound history .global name b) ∧
      (∀ name owner b, t.resolve? none name = some (owner, b) ↔
        owner = .global ∧ ScopeChange.LastBound history .global name b) ∧
      (∀ owner name, nested.get? owner name = t.get? owner name) ∧
      ∀ within name, nested.resolve? within name = t.resolve? within name := by
  intro t nested
  have hget : ∀ owner name b, t.get? owner name = some b ↔
      ScopeChange.LastBound history owner name b :=
    fun _ _ _ ↦ ScopeTable.get?_ofHistory_eq_some_iff
  have hnested : nested.toScopeTable = t := NestedScopes.toScopeTable_ofHistory history
  refine ⟨hget, fun name b ↦ (hget .global name b).trans ScopeChange.lastBound_global_iff,
    fun id name owner b ↦ ?_, fun name owner b ↦ ?_, fun owner name ↦ ?_, fun within name ↦ ?_⟩
  · rw [ScopeTable.resolve?_some_eq_some_iff, Option.eq_none_iff_forall_ne_some, hget, hget]
    simp only [ne_eq, hget]
  · rw [ScopeTable.resolve?_none_eq_some_iff, hget]
  · rw [← hnested, NestedScopes.get?_toScopeTable]
  · rw [← hnested, NestedScopes.resolve?_toScopeTable]

end BlockCompiler
