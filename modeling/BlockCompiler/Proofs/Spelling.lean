import BlockCompiler.Proofs.Separation

/-!
# Spellings are read back

The spellings of the tokens of a text, with a blank between any two, are a text of the same tokens.
A blank ends every token, and a spelling leaves neither a comment nor a string literal open, so it
is enough that each token is read from its spelling alone (`Token.IsReadBack`).

This is not so for every token: a string literal may hold a quote, and a character may be one that a
word starts with. A token that was read from a text has no such payload. A character of its own
(`Token.IsStray`) starts nothing else; the slash is one of them where no comment is opened, and on
its own it opens none.

Numbers are written with the shortest digits that read back to them. As for the written forms of
programs, this property of floating-point arithmetic is a condition on the numbers of the text.
-/

namespace BlockCompiler

/-- The spelling of the number is digits, with a point between them or without one, and it is read
as the number. -/
def Decimal.IsPositional (x : Float) : Prop :=
  (∃ whole : List Char, whole ≠ [] ∧ (∀ c ∈ whole, c.isDigit = true) ∧
      (positionalLayout.write x = String.ofList whole ∨
        ∃ fraction : List Char, fraction ≠ [] ∧ (∀ c ∈ fraction, c.isDigit = true) ∧
          positionalLayout.write x = String.ofList (whole ++ '.' :: fraction))) ∧
    Token.ofSource (positionalLayout.write x) = [.number x]

namespace Token

/-! ## What is read from a text -/

/-- No word, number, string literal or sign starts with the character, and no gap does unless it is
a comment. -/
structure IsStray (c : Char) : Prop where
  blank : isBlank c = false
  digit : c.isDigit = false
  letter : c.isAlpha = false
  quote : c ≠ '"'
  sign : Fixed.ofText? (String.singleton c) = none

/-- What stands behind a gap is not blank. -/
theorem isBlank_of_skipGap {b : Bool} {c : Char} {cs rest : List Char}
    (h : skipGap b cs = some (c :: rest)) : isBlank c = false := by
  fun_induction skipGap b cs with
  | case1 _ ih => exact ih h
  | case2 _ _ _ _ ih => exact ih h
  | case3 _ _ _ hblank =>
    obtain ⟨rfl, -⟩ := List.cons.inj (Option.some.inj h)
    exact Bool.eq_false_iff.mpr hblank
  | case4 => cases h
  | case5 _ ih => exact ih h
  | case6 _ _ _ ih => exact ih h
  | case7 => cases h

theorem ofChar_eq_char {c d : Char} (h : ofChar c = char d) :
    c = d ∧ Fixed.ofText? (String.singleton c) = none := by
  unfold ofChar at h
  cases hfixed : Fixed.ofText? (String.singleton c) with
  | some f =>
    rw [hfixed] at h
    exact nomatch h
  | none =>
    rw [hfixed] at h
    exact ⟨char.inj h, rfl⟩

/-- A character that is read as a token of its own starts nothing else. -/
theorem isStray_of_next? {c : Char} {cs rest : List Char} (h : next? cs = some (char c, rest)) :
    IsStray c := by
  unfold next? at h
  split at h
  · cases h
  · cases h
  · next first r hgap =>
    -- The other kinds of token are told by their first character and carry no character.
    split at h
    · have hnumber : (readNumber (first :: r)).1 = char c := by rw [Option.some.inj h]
      rw [readNumber] at hnumber
      split at hnumber <;> cases hnumber
    · next hdigit =>
      split at h
      · have hword : (readWord (first :: r)).1 = char c := by rw [Option.some.inj h]
        rw [readWord] at hword
        generalize Fixed.ofText? _ = found at hword
        cases found <;> cases hword
      · next hletter =>
        split at h
        · unfold readText? at h
          split at h
          · cases h
          · cases h
        · next hquote =>
          obtain ⟨rfl, hsign⟩ := ofChar_eq_char (Prod.mk.inj (Option.some.inj h)).1
          exact ⟨isBlank_of_skipGap hgap, Bool.eq_false_iff.mpr hdigit,
            Bool.eq_false_iff.mpr hletter, hquote, hsign⟩

/-! ## One spelling -/

/-- The token is read from its spelling, which nothing follows. -/
def IsReadBack (t : Token) : Prop := next? t.spelling.toList = some (t, [])

theorem isReadBack_number {x : Float} (h : Decimal.IsPositional x) : (number x).IsReadBack := by
  obtain ⟨⟨whole, hne, hwhole, hform⟩, hread⟩ := h
  -- Read on its own, the spelling gives the number itself, so these are the digits of the number.
  have hnumber {y : Float}
      (hnext : next? (number x).spelling.toList = some (number y, [])) :
      (number x).IsReadBack := by
    have htokens : [number y] = [number x] := by
      rw [← hread, ← ofChars_nil, ← ofChars_of_next? hnext]
      rfl
    rw [IsReadBack, hnext, List.singleton_inj.mp htokens]
  rcases hform with htext | ⟨fraction, -, hfraction, htext⟩
  · refine hnumber (y := Decimal.ofDigits whole []) ?_
    rw [spelling, htext, String.toList_ofList]
    have hnext : next? (whole ++ []) = _ := next?_whole hne hwhole nofun (by simp)
    rwa [List.append_nil] at hnext
  · refine hnumber (y := Decimal.ofDigits whole fraction) ?_
    rw [spelling, htext, String.toList_ofList]
    have hnext : next? (whole ++ '.' :: (fraction ++ [])) = _ :=
      next?_number hne hwhole hfraction nofun
    rwa [List.append_nil] at hnext

theorem isReadBack_text {contents : String} (h : (text contents).IsLexeme) :
    (text contents).IsReadBack := by
  have hspelling : (text contents).spelling.toList = '"' :: (contents.toList ++ ['"']) := by
    simp [spelling]
  rw [IsReadBack, hspelling, next?_text h, String.ofList_toList]

theorem isReadBack_name {ident : String} (h : (name ident).IsLexeme) :
    (name ident).IsReadBack := by
  have hnext : next? (ident.toList ++ []) = _ := next?_word h.1 nofun
  rw [List.append_nil, String.ofList_toList, h.2] at hnext
  exact hnext

theorem isReadBack_char {c : Char} (h : IsStray c) : (char c).IsReadBack := by
  have hspelling : (char c).spelling.toList = [c] := by simp [spelling]
  have hopen : ¬['/', '*'] <+: [c] := fun hprefix ↦ absurd hprefix.length_le (by simp)
  rw [IsReadBack, hspelling, next?, skipGap_of_not_comment h.blank hopen]
  simp [h.digit, h.letter, h.quote, ofChar, h.sign]

theorem isReadBack_fixed (f : Fixed) : (fixed f).IsReadBack := by
  have hnext : next? (f.text.toList ++ []) = _ := next?_matches (.fixed f)
    (fun w' _ _ hprefix ↦ by simpa using hprefix.length_le)
    fun g hg ↦ congrArg fixed (text_injective hg)
  rw [List.append_nil] at hnext
  exact hnext

/-- What was read from a text is read back from its spelling. -/
theorem isReadBack_of_mem_ofSource {source : String} {t : Token} (h : t ∈ ofSource source)
    (hnumber : ∀ x, t = number x → Decimal.IsPositional x) : t.IsReadBack := by
  obtain ⟨ds, rest, hnext⟩ := exists_next?_of_mem_scan _ h
  have hlexeme := isLexeme_of_next? hnext
  cases t with
  | number x => exact isReadBack_number (hnumber x rfl)
  | text contents => exact isReadBack_text hlexeme
  | name ident => exact isReadBack_name hlexeme
  | char c => exact isReadBack_char (isStray_of_next? hnext)
  | fixed f => exact isReadBack_fixed f

namespace IsReadBack

variable {t : Token}

theorem ofSource_eq (h : t.IsReadBack) : ofSource t.spelling = [t] := by
  rw [Token.ofSource_eq, ofChars_of_next? h, ofChars_nil]

/-- A spelling that is read as one token leaves nothing open. -/
theorem isClosed (h : t.IsReadBack) : IsClosed t.spelling.toList := by
  rw [isClosed_iff, snd_scan_of_next? h, snd_scan_of_none rfl]
  rfl

end IsReadBack

/-! ## All spellings -/

/-- The spellings of tokens with a blank between any two. -/
def spellings (ts : List Token) : String := " ".intercalate (ts.map spelling)

theorem ofSource_spellings {ts : List Token} (h : ∀ t ∈ ts, t.IsReadBack) :
    ofSource (spellings ts) = ts := by
  induction ts with
  | nil => exact ofChars_nil
  | cons t ts ih =>
    obtain ⟨ht, hts⟩ := List.forall_mem_cons.mp h
    cases ts with
    | nil => exact ht.ofSource_eq
    | cons u ts =>
      have hspellings : spellings (t :: u :: ts) = t.spelling ++ " " ++ spellings (u :: ts) :=
        String.intercalate_cons_cons
      rw [hspellings, ofSource_append ht.isClosed (by decide) (List.all_eq_true.mp rfl),
        ht.ofSource_eq, ih hts, List.singleton_append]

/-- The spellings of the tokens of a text, with a blank between any two, have the same tokens,
whatever stood between them in the text. A reader of the spellings gives out what a reader of the
text does, up to the end of the source and beyond. -/
theorem spellings_read_back {source : String}
    (hnumbers : ∀ x, number x ∈ ofSource source → Decimal.IsPositional x) :
    ofSource (spellings (ofSource source)) = ofSource source ∧
      ∀ n, ((Reader.ofSource (spellings (ofSource source))).after n).advance.1 =
        ((Reader.ofSource source).after n).advance.1 := by
  have htokens : ofSource (spellings (ofSource source)) = ofSource source := by
    refine ofSource_spellings fun t ht ↦ isReadBack_of_mem_ofSource ht ?_
    rintro x rfl
    exact hnumbers x ht
  refine ⟨htokens, fun n ↦ ?_⟩
  rw [Reader.ofSource, Reader.advance_after, Reader.ofSource, Reader.advance_after]
  exact congrArg (·[n]?) htokens

/-- A slash in front of an asterisk stays one, and so do an underscore in front of a letter and a
point in front of a number, and what looks like a comment in a string literal stays in it. -/
theorem spellings_read_back_strays :
    let source := "/12./ *_x.0.50\"/* a\n*/\"whilex/**/while é"
    (Decimal.IsPositional 12 ∧ Decimal.IsPositional 0.5) ∧
      spellings (ofSource source) = "/ 12 / * _ x . 0.5 \"/* a\n*/\" whilex while é" ∧
      ofSource (spellings (ofSource source)) = ofSource source := by
  intro source
  have htokens : ofSource source = [.char '/', .number 12, .char '/', .operator .mul, .char '_',
      .name "x", .char '.', .number 0.5, .text "/* a\n*/", .name "whilex", .keyword .whileKw,
      .char 'é'] := by decide +kernel
  have htwelve : Decimal.IsPositional 12 :=
    ⟨⟨['1', '2'], by simp, by simp, .inl (by decide +kernel)⟩, by decide +kernel⟩
  have hhalf : Decimal.IsPositional 0.5 :=
    ⟨⟨['0'], by simp, by simp, .inr ⟨['5'], by simp, by simp, by decide +kernel⟩⟩,
      by decide +kernel⟩
  refine ⟨⟨htwelve, hhalf⟩, ?_, (spellings_read_back fun x hx ↦ ?_).1⟩
  · rw [htokens]
    decide +kernel
  · rw [htokens] at hx
    simp only [List.mem_cons, List.not_mem_nil, number.injEq, reduceCtorEq, false_or, or_false]
      at hx
    rcases hx with rfl | rfl
    · exact htwelve
    · exact hhalf

end Token

end BlockCompiler
