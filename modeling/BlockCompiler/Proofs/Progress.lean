import BlockCompiler.Proofs.LongestMatch
import BlockCompiler.Proofs.ParseFailure
import Mathlib.Control.Monad.Basic

/-!
# A parser moves forward

Calls of one parser, one behind the other and going on behind errors, each start where the last one
stopped (`Parse.cursor`). Every call has an answer, and what it leaves is the end of what it was
given. A tree costs at least one token; the exceptions are a program, which may be empty, and the
answer that there is no declaration, and both of them are given at the end of the source only.

The end of the source stays in place: it is reached after as many requests as the text has tokens,
and from then on a reader has nothing to give.
-/

namespace BlockCompiler

theorem Outcome.Yields.rest_eq {α : Type} {n : Nat} {o : Outcome α n} {a : α} {rest : List Token}
    (h : o.Yields a rest) : o.rest = rest := by
  obtain ⟨hlt, rfl⟩ := h
  rfl

namespace Parse

variable {ts : List Token} {call : Call} {t : Tree}

/-! ## One call -/

/-- A program that is accepted reaches the end of the source. -/
theorem rest_program {ds : List Decl} (h : (program ts).result = .ok ds) :
    (program ts).rest = [] := by
  fun_induction program ts generalizing ds with
  | case1 => rfl
  | case2 => exact absurd h (by simp [Outcome.result])
  | case3 ts d rest hlt hnext ih =>
    rw [Outcome.result_widen, Outcome.result_map] at h
    obtain ⟨ds', rest', hds, -⟩ := Outcome.exists_yields_of_map_result h
    have hrest := ih (Outcome.result_eq_ok_iff.mpr ⟨rest', hds⟩)
    obtain ⟨hlt', hds⟩ := hds
    rw [hds] at hrest ⊢
    exact hrest

/-- A tree is made from at least one token. -/
theorem length_run_lt (h : (call.run ts).1 = .ok t) (hcall : call ≠ .program)
    (ht : t ≠ .declaration none) : (call.run ts).2.length < ts.length := by
  have hanswer {α : Type} {o : Outcome α ts.length} {f : α → Tree} (h : o.result.map f = .ok t) :
      o.rest.length < ts.length := by
    obtain ⟨a, rest, hyields, -⟩ := Outcome.exists_yields_of_map_result h
    exact hyields.rest_eq ▸ hyields.length_lt
  cases call with
  | expr | stmt | block | prototype => exact hanswer h
  | declaration =>
    rw [Call.run] at h ⊢
    split at h
    · exact absurd (Except.ok.inj h).symm ht
    · exact hanswer h
  | program => exact absurd rfl hcall

/-- At the end of the source there is no declaration, and only there, and a program ends there. -/
theorem rest_run_eq_nil (h : (call.run ts).1 = .ok t)
    (hend : call = .program ∨ t = .declaration none) : (call.run ts).2 = [] := by
  cases call with
  | program =>
    obtain ⟨ds, rest, hds, -⟩ := Outcome.exists_yields_of_map_result h
    exact rest_program (Outcome.result_eq_ok_iff.mpr ⟨rest, hds⟩)
  | declaration =>
    obtain rfl := hend.resolve_left (by simp)
    rw [Call.run] at h ⊢
    split at h
    · rfl
    · obtain ⟨_, _, -, heq⟩ := Outcome.exists_yields_of_map_result h
      exact absurd heq (by simp)
  | expr | stmt | block | prototype =>
    obtain rfl := hend.resolve_left (by simp)
    obtain ⟨_, _, -, heq⟩ := Outcome.exists_yields_of_map_result h
    exact absurd heq (by simp)

/-! ## Calls one behind the other -/

/-- The tokens that a parser has left behind some calls. -/
def cursor : List Call → List Token → List Token
  | [], ts => ts
  | call :: calls, ts => cursor calls (call.run ts).2

theorem cursor_concat (calls : List Call) (call : Call) (ts : List Token) :
    cursor (calls ++ [call]) ts = (call.run (cursor calls ts)).2 := by
  induction calls generalizing ts with
  | nil => rfl
  | cons first calls ih => exact ih (first.run ts).2

theorem session_concat (calls : List Call) (call : Call) (ts : List Token) :
    session (calls ++ [call]) ts = session calls ts ++ [(call.run (cursor calls ts)).1] := by
  induction calls generalizing ts with
  | nil => rfl
  | cons first calls ih => exact congrArg ((first.run ts).1 :: ·) (ih (first.run ts).2)

/-- Every call is answered. -/
theorem length_session (calls : List Call) (ts : List Token) :
    (session calls ts).length = calls.length := by
  induction calls generalizing ts with
  | nil => rfl
  | cons first calls ih => exact congrArg (· + 1) (ih (first.run ts).2)

theorem cursor_suffix (calls : List Call) (ts : List Token) : cursor calls ts <:+ ts := by
  induction calls generalizing ts with
  | nil => exact List.suffix_refl ts
  | cons first calls ih => exact (ih _).trans (run_isDefensive_and_suffix first ts).2

/-- A reader that has given out all tokens but the last ones goes on with these. -/
theorem advance_of_suffix {source : String} {rest : List Token}
    (h : rest <:+ Token.ofSource source) (n : Nat) :
    ((Reader.ofSource source).after
      ((Token.ofSource source).length - rest.length + n)).advance.1 = rest[n]? := by
  rw [Reader.ofSource, Reader.advance_after]
  change (Token.ofSource source)[_]? = _
  obtain ⟨taken, htaken⟩ := h
  rw [← htaken, List.length_append, Nat.add_sub_cancel, List.getElem?_append_right (by omega),
    Nat.add_sub_cancel_left]

/-- Parsing ends and moves forward. Every call of a parser is answered from the tokens that the
calls in front of it have left; these are an end of the tokens of the text, and so are those that it
leaves itself. A success takes a token, except where the source ends: a program that is accepted
and the answer that there is no declaration leave nothing. What a call leaves is what a reader still
has to give after as many requests as tokens are taken, and behind that there is nothing. -/
theorem moves_forward (source : String) (calls : List Call) (call : Call) :
    let all := Token.ofSource source
    let ts := cursor calls all
    let rest := (call.run ts).2
    ((session calls all).length = calls.length ∧
      session (calls ++ [call]) all = session calls all ++ [(call.run ts).1] ∧
      cursor (calls ++ [call]) all = rest) ∧
    (ts <:+ all ∧ rest <:+ ts) ∧
    (∀ t, (call.run ts).1 = .ok t → call ≠ .program → t ≠ .declaration none →
      rest.length < ts.length) ∧
    (∀ t, (call.run ts).1 = .ok t → call = .program ∨ t = .declaration none → rest = []) ∧
    ∀ n, ((Reader.ofSource source).after (all.length - rest.length + n)).advance.1 = rest[n]? := by
  intro all ts rest
  have hts : ts <:+ all := cursor_suffix calls all
  have hrest : rest <:+ ts := (run_isDefensive_and_suffix call ts).2
  exact ⟨⟨length_session calls all, session_concat calls call all, cursor_concat calls call all⟩,
    ⟨hts, hrest⟩, fun _ ↦ length_run_lt, fun _ ↦ rest_run_eq_nil,
    advance_of_suffix (hrest.trans hts)⟩

/-- A parser fails at an operator without an operand and at what stands behind it, goes on with a
name, and meets the end of the source in a block. There it stays: no declaration is left. -/
theorem moves_forward_behind_errors :
    let all := Token.ofSource "x + ; y \x7b z;"
    let calls := [Call.expr, .declaration]
    (session calls all).map Except.isOk = [false, false] ∧
      (Call.expr.run (cursor calls all)).1 = .ok (.expr (.name "y")) ∧
      (Call.expr.run (cursor calls all)).2.length < (cursor calls all).length ∧
      (Call.block.run (cursor [.expr, .declaration, .expr] all)).1.isOk = false ∧
      (Call.declaration.run (cursor [.expr, .declaration, .expr, .block] all)).2 = [] := by
  intro all calls
  have hname : (Parse.expr (cursor calls all)).result = .ok (.name "y") := by decide +kernel
  have hexpr : (Call.expr.run (cursor calls all)).1 = .ok (.expr (.name "y")) :=
    congrArg (Except.map Tree.expr) hname
  have hnone : nextDeclaration? (cursor [.expr, .declaration, .expr, .block] all) = none := by
    decide +kernel
  have hend : (Call.declaration.run (cursor [.expr, .declaration, .expr, .block] all)).1 =
      .ok (.declaration none) := by rw [Call.run, hnone]
  obtain ⟨-, -, hforward, -⟩ := moves_forward "x + ; y \x7b z;" calls .expr
  obtain ⟨-, -, -, hdone, -⟩ :=
    moves_forward "x + ; y \x7b z;" [.expr, .declaration, .expr, .block] .declaration
  exact ⟨by decide +kernel, hexpr, hforward _ hexpr (by simp) (by simp), by decide +kernel,
    hdone _ hend (.inr rfl)⟩

end Parse

end BlockCompiler
