import BlockCompiler.Proofs.Grammar.Completeness
import BlockCompiler.Proofs.Separation
import BlockCompiler.Proofs.Trees
import Mathlib.Control.Monad.Basic

/-!
# Programs concatenate

The declarations of a text that is put together of two texts are those of the first and then those
of the second (`Parse.program_concatenation`). Blanks stand between the two, so that their tokens
are apart, but the parser could still read across the seam: a constant may do without its semicolon,
and an operator or a parenthesis behind it would continue its value. The tokens of a program do not
start that way. Tokens that are no program may, and then its error stays the same only if the first
text ends in a semicolon or in a closing brace.
-/

namespace BlockCompiler

namespace Parse

open Grammar

variable {ts us : List Token}

theorem result_program_of_nil (h : skipSemis ts = []) : (program ts).result = .ok [] := by
  rw [program, nextDeclaration?_of_nil h]
  rfl

theorem result_program_of_error {t : Token} {v rest : List Token} {cause : ParseError}
    (h : skipSemis ts = t :: v) (hd : declaration t v = .error cause rest) :
    (program ts).result = .error cause := by
  obtain ⟨hle, hnext⟩ := nextDeclaration?_of_cons h
  rw [program, hnext, hd]
  rfl

theorem result_program_of_ok {t : Token} {v rest : List Token} {d : Decl}
    (h : skipSemis ts = t :: v) (hd : (declaration t v).Yields d rest) :
    (program ts).result = (program rest).result.map (d :: ·) := by
  obtain ⟨hle, hnext⟩ := nextDeclaration?_of_cons h
  obtain ⟨hlt, hd⟩ := hd
  rw [program, hnext, hd]
  exact Outcome.result_widen.trans Outcome.result_map

/-- Semicolons in front do not matter. -/
theorem result_program_congr (h : skipSemis us = skipSemis ts) :
    (program us).result = (program ts).result := by
  cases hskip : skipSemis ts with
  | nil => rw [result_program_of_nil hskip, result_program_of_nil (h.trans hskip)]
  | cons t v =>
    cases hd : declaration t v with
    | error cause rest =>
      rw [result_program_of_error hskip hd, result_program_of_error (h.trans hskip) hd]
    | ok d rest hlt =>
      rw [result_program_of_ok hskip ⟨hlt, hd⟩, result_program_of_ok (h.trans hskip) ⟨hlt, hd⟩]

theorem closes_or_nil_of_append {u v : List Token} (h : Closes (u ++ v)) : v = [] ∨ Closes v := by
  rcases List.eq_nil_or_concat v with rfl | ⟨w, t, rfl⟩
  · exact .inl rfl
  · rw [List.concat_eq_append] at h ⊢
    rw [← List.append_assoc, Closes, List.getLast?_concat] at h
    exact .inr (by rwa [Closes, List.getLast?_concat])

/-- Behind a program, tokens are parsed as they are alone, if they do not continue the program. -/
theorem result_program_append {u : List Token} {ds : List Decl} (h : IsProgram ByPrecedence u ds)
    (hends : EndsExpr ts ∨ u = [] ∨ Closes u) :
    (program (u ++ ts)).result = (program ts).result.map (ds ++ ·) := by
  -- as for one program alone, all that is known behind a constant is what follows its semicolons
  suffices hall : ∀ us, skipSemis us = skipSemis (u ++ ts) →
      (program us).result = (program ts).result.map (ds ++ ·) from hall _ rfl
  induction h with
  | nil =>
    intro us hus
    rw [result_program_congr (show skipSemis us = skipSemis ts from hus)]
    cases (program ts).result <;> rfl
  | @semi v ds others ih =>
    intro us hus
    refine ih (hends.imp_right fun h ↦ ?_) us (hus.trans (by rw [List.cons_append, skipSemis]))
    exact closes_or_nil_of_append (u := [_]) (h.resolve_left (by simp))
  | @decl u v d ds first others ih =>
    intro us hus
    have hne : u ++ v ≠ [] := by
      obtain ⟨k, v', r, rfl, -⟩ := yields_declaration first (.inl (endsExpr_of_isProgram others))
      simp
    have hrest : EndsExpr (v ++ ts) ∨ Closes u := by
      by_cases hv : v = []
      · subst hv
        rw [List.append_nil] at hends hne
        exact hends.imp_right fun h ↦ h.resolve_left hne
      · have hhead : (v ++ ts).head? = v.head? := by
          rw [List.head?_append, Option.or_eq_left_of_isSome]
          simpa using hv
        refine .inl ?_
        have hends := endsExpr_of_isProgram others
        rwa [EndsExpr, EndsPrimary, ← hhead] at hends
    obtain ⟨k, v', r, rfl, hd, hr⟩ := yields_declaration first hrest
    have hskip : skipSemis us = .keyword k :: (v' ++ (v ++ ts)) :=
      hus.trans (by rw [List.cons_append, List.cons_append, List.append_assoc]; rfl)
    rw [result_program_of_ok hskip hd, ih ?_ r hr]
    · cases (program ts).result <;> rfl
    · exact hends.imp_right fun h ↦ closes_or_nil_of_append (h.resolve_left hne)

/-- Programs concatenate: blanks between two texts, the first of which is parsed and leaves neither
a comment nor a string literal open, yield the declarations of both. Behind a text without tokens,
or one that ends in a semicolon or in a closing brace, the error of the second text stays the same
as well. -/
theorem program_concatenation {a b w : String} {da : List Decl}
    (ha : (program (Token.ofSource a)).result = .ok da) (hclosed : Token.IsClosed a.toList)
    (hw : w ≠ "") (hblank : ∀ c ∈ w.toList, isBlank c = true) :
    (∀ db, (program (Token.ofSource b)).result = .ok db →
      (program (Token.ofSource (a ++ w ++ b))).result = .ok (da ++ db)) ∧
    (Token.ofSource a = [] ∨ Closes (Token.ofSource a) →
      ∀ cause, (program (Token.ofSource b)).result = .error cause →
        (program (Token.ofSource (a ++ w ++ b))).result = .error cause) := by
  have hprogram := result_program_eq_ok_iff.mp ha
  rw [Token.ofSource_append hclosed hw hblank]
  refine ⟨fun db hb ↦ ?_, fun hends cause hb ↦ ?_⟩
  · have hends := endsExpr_of_isProgram (result_program_eq_ok_iff.mp hb)
    rw [result_program_append hprogram (.inl hends), hb]
    rfl
  · rw [result_program_append hprogram (.inr hends), hb]
    rfl

/-- A constant without its semicolon may be followed by a declaration, and a declaration with a
semicolon by an error, which is then reported. -/
theorem program_concatenation_constant :
    (program (Token.ofSource ("const x = y" ++ "\n" ++ "extern void f();"))).result =
        .ok ([.constant "x" (.name "y")] ++ [.external ⟨.void, "f", []⟩]) ∧
      (program (Token.ofSource ("extern void f();" ++ "\t" ++ "(x"))).result =
        .error (.unknownTopLevel (.mark .openParen)) := by
  have hconstant : (program (Token.ofSource "const x = y")).result =
      .ok [.constant "x" (.name "y")] := by decide +kernel
  have hexternal : (program (Token.ofSource "extern void f();")).result =
      .ok [.external ⟨.void, "f", []⟩] := by decide +kernel
  have hcloses : Closes (Token.ofSource "extern void f();") := .inl (by decide +kernel)
  have hnewline : "\n".toList.all isBlank = true := by decide +kernel
  have htab : "\t".toList.all isBlank = true := by decide +kernel
  constructor
  · exact (program_concatenation hconstant (by decide +kernel) (by decide +kernel)
      (List.all_eq_true.mp hnewline)).1 _ hexternal
  · exact (program_concatenation hexternal (by decide +kernel) (by decide +kernel)
      (List.all_eq_true.mp htab)).2 (.inr hcloses) _ (by decide +kernel)

end Parse

end BlockCompiler
