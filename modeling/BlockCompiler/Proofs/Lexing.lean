import BlockCompiler.Token.Lexer

/-!
# Texts and their tokens

What is read from a text is a lexeme: a name is a word that is not reserved, and a string literal
has no quote inside. Conversely the spelling of a lexeme is read as that lexeme wherever it stands,
provided that a word or a number does not go on behind it.

`Token.Reads` says the latter of a stretch of text. Its rules put a text together from its front to
its back, so that the text of a tree can be read along with the tree.
-/

namespace BlockCompiler

namespace Token

def ofChars (cs : List Char) : List Token := (scan cs).1

theorem ofSource_eq (source : String) : ofSource source = ofChars source.toList := rfl

theorem ofChars_of_next? {cs rest : List Char} {t : Token} (h : next? cs = some (t, rest)) :
    ofChars cs = t :: ofChars rest := by
  rw [ofChars, scan]
  split
  · next hnone => exact absurd (hnone.symm.trans h) (by simp)
  · next t' rest' hsome =>
    obtain ⟨rfl, rfl⟩ := Prod.mk.inj (Option.some.inj (hsome.symm.trans h))
    rfl

theorem ofChars_of_none {cs : List Char} (h : next? cs = none) : ofChars cs = [] := by
  rw [ofChars, scan]
  split
  · rfl
  · next hsome => exact absurd (h.symm.trans hsome) (by simp)

theorem ofChars_congr {cs cs' : List Char} (h : next? cs = next? cs') :
    ofChars cs = ofChars cs' := by
  cases hnext : next? cs' with
  | none => rw [ofChars_of_none hnext, ofChars_of_none (h.trans hnext)]
  | some found => rw [ofChars_of_next? hnext, ofChars_of_next? (h.trans hnext)]

theorem ofChars_nil : ofChars [] = [] := ofChars_of_none rfl

/-! ## Lexemes -/

/-- A letter with letters, digits and underscores behind it. -/
def IsWord (cs : List Char) : Prop :=
  ∃ c rest, cs = c :: rest ∧ c.isAlpha = true ∧ ∀ x ∈ cs, isWordPart x = true

/-- What a token carries is spelled like the token: it is read back from its spelling. -/
def IsLexeme : Token → Prop
  | name ident => IsWord ident.toList ∧ Fixed.ofText? ident = none
  | text contents => '"' ∉ contents.toList
  | _ => True

theorem isLexeme_of_readWord {c : Char} {cs : List Char} (h : c.isAlpha = true) :
    (readWord (c :: cs)).1.IsLexeme := by
  cases hfixed : Fixed.ofText? (String.ofList ((c :: cs).takeWhile isWordPart)) with
  | some f =>
    simp only [readWord, hfixed]
    trivial
  | none =>
    have hc : isWordPart c = true := by simp [isWordPart, Char.isAlphanum, h]
    simp only [readWord, hfixed]
    refine ⟨⟨c, cs.takeWhile isWordPart, ?_, h, ?_⟩, hfixed⟩
    · rw [String.toList_ofList, List.takeWhile_cons_of_pos hc]
    · rw [String.toList_ofList]
      exact List.all_eq_true.mp List.all_takeWhile

theorem isLexeme_of_next? {cs rest : List Char} {t : Token} (h : next? cs = some (t, rest)) :
    t.IsLexeme := by
  unfold next? at h
  split at h
  · simp at h
  · simp at h
  · next c r _ =>
    -- The first character behind the gap tells which token it is.
    split at h
    · have hnumber : (readNumber (c :: r)).1 = t := by rw [Option.some.inj h]
      rw [← hnumber, readNumber]
      split <;> trivial
    · split at h
      · next hc =>
        have hword : (readWord (c :: r)).1 = t := by rw [Option.some.inj h]
        exact hword ▸ isLexeme_of_readWord hc
      · split at h
        · unfold readText? at h
          split at h
          · simp at h
          · obtain ⟨rfl, -⟩ := Prod.mk.inj (Option.some.inj h)
            show '"' ∉ (String.ofList _).toList
            rw [String.toList_ofList]
            exact fun hquote ↦ by simpa using List.all_eq_true.mp List.all_takeWhile _ hquote
        · obtain ⟨rfl, -⟩ := Prod.mk.inj (Option.some.inj h)
          unfold ofChar
          cases Fixed.ofText? (String.singleton c) <;> trivial

/-- The tokens of a text are read one by one. -/
theorem exists_next?_of_mem_scan {t : Token} (cs : List Char) (h : t ∈ (scan cs).1) :
    ∃ ds rest, next? ds = some (t, rest) := by
  fun_induction scan cs with
  | case1 => simp at h
  | case2 cs first rest hnext _ ts stop hscan ih =>
    rcases List.mem_cons.mp h with rfl | h
    · exact ⟨cs, rest, hnext⟩
    · exact ih (hscan ▸ h)

theorem isLexeme_of_mem_scan {t : Token} (cs : List Char) (h : t ∈ (scan cs).1) : t.IsLexeme := by
  obtain ⟨_, _, hnext⟩ := exists_next?_of_mem_scan cs h
  exact isLexeme_of_next? hnext

/-- The tokens of a source text are lexemes. -/
theorem isLexeme_of_mem_ofSource {source : String} {t : Token} (h : t ∈ ofSource source) :
    t.IsLexeme :=
  isLexeme_of_mem_scan _ h

/-! ## Reading a stretch of text -/

/-- No word and no number goes on with the text. -/
def Separate (cs : List Char) : Prop := ∀ c, cs.head? = some c → isWordPart c = false

/-- Any text may follow. -/
abbrev Anything : List Char → Prop := fun _ ↦ True

/-- The characters are read as the tokens, in front of any text that may follow. -/
def Reads (MayFollow : List Char → Prop) (cs : List Char) (ts : List Token) : Prop :=
  ∀ rest, MayFollow rest → ofChars (cs ++ rest) = ts ++ ofChars rest

namespace Reads

variable {MayFollow : List Char → Prop} {cs ds : List Char} {ts us : List Token} {c : Char}

theorem nil : Reads MayFollow [] [] := fun _ _ ↦ rfl

/-- Behind a text that ends by itself, any other text may stand. -/
theorem append (h : Reads Anything cs ts) (h' : Reads MayFollow ds us) :
    Reads MayFollow (cs ++ ds) (ts ++ us) := by
  intro rest hrest
  rw [List.append_assoc, h _ trivial, h' rest hrest, List.append_assoc]

/-- Behind a word or a number, something else must stand. -/
theorem append_cons (h : Reads Separate cs ts) (hc : isWordPart c = false)
    (h' : Reads MayFollow (c :: ds) us) : Reads MayFollow (cs ++ c :: ds) (ts ++ us) := by
  intro rest hrest
  have hseparate : Separate (c :: ds ++ rest) := by
    rintro _ ⟨⟩
    exact hc
  rw [List.append_assoc, h _ hseparate, h' rest hrest, List.append_assoc]

end Reads

/-! ### Gaps -/

theorem skipGap_of_isBlank {c : Char} (h : isBlank c = true) (cs : List Char) :
    skipGap false (c :: cs) = skipGap false cs := by
  rw [skipGap.eq_def]
  split
  · next heq => exact absurd ((List.cons.inj heq).1 ▸ h) (by decide)
  · next heq =>
    obtain ⟨rfl, rfl⟩ := List.cons.inj heq
    rw [if_pos h]
  all_goals grind

/-- Nothing is skipped in front of a character that is not blank and starts no comment. -/
theorem skipGap_of_not_comment {c : Char} {cs : List Char} (h : isBlank c = false)
    (hcomment : ¬['/', '*'] <+: c :: cs) : skipGap false (c :: cs) = some (c :: cs) := by
  rw [skipGap.eq_def]
  split
  · next rest _ heq => exact absurd ⟨rest, heq.symm⟩ hcomment
  · next heq =>
    obtain ⟨rfl, rfl⟩ := List.cons.inj heq
    rw [if_neg (by simp [h])]
  · next heq => exact nomatch heq
  all_goals next hbool _ => exact nomatch hbool

theorem skipGap_of_not_isBlank {c : Char} (h : isBlank c = false) (hslash : c ≠ '/')
    (cs : List Char) : skipGap false (c :: cs) = some (c :: cs) :=
  skipGap_of_not_comment h fun hcomment ↦ hslash (List.cons_prefix_cons.mp hcomment).1.symm

namespace Reads

variable {MayFollow : List Char → Prop} {cs ds : List Char} {ts us : List Token} {c : Char}

theorem blank (hc : isBlank c = true) (h : Reads MayFollow cs ts) :
    Reads MayFollow (c :: cs) ts := by
  intro rest hrest
  have hnext : next? (c :: (cs ++ rest)) = next? (cs ++ rest) := by
    rw [next?, next?, skipGap_of_isBlank hc]
  rw [List.cons_append, ofChars_congr hnext, h rest hrest]

theorem gap (h : ∀ c ∈ cs, isBlank c = true) : Reads MayFollow cs [] := by
  induction cs with
  | nil => exact .nil
  | cons c cs ih =>
    obtain ⟨hc, hcs⟩ := List.forall_mem_cons.mp h
    exact .blank hc (ih hcs)

end Reads

/-! ### Signs -/

/-- The character is not blank, and no word, number, string literal or comment starts with it. -/
def isSign (c : Char) : Bool :=
  !isBlank c && !c.isDigit && !c.isAlpha && c ≠ '"' && c ≠ '/'

theorem next?_sign {c : Char} (h : isSign c = true) (cs : List Char) :
    next? (c :: cs) = some (ofChar c, cs) := by
  simp only [isSign, Bool.and_eq_true, Bool.not_eq_true', decide_eq_true_eq] at h
  obtain ⟨⟨⟨⟨hblank, hdigit⟩, halpha⟩, hquote⟩, hslash⟩ := h
  rw [next?, skipGap_of_not_isBlank hblank hslash]
  simp [hdigit, halpha, hquote]

/-! ### Words -/

theorem isWordPart_eq_false_of_isBlank {c : Char} (h : isBlank c = true) :
    isWordPart c = false := by
  simp only [isBlank, Bool.or_eq_true, decide_eq_true_eq] at h
  rcases h with ((((rfl | rfl) | rfl) | rfl) | rfl) | rfl <;> rfl

theorem skipGap_of_isWordPart {c : Char} (h : isWordPart c = true) (cs : List Char) :
    skipGap false (c :: cs) = some (c :: cs) := by
  refine skipGap_of_not_isBlank (Bool.eq_false_iff.mpr fun hblank ↦ ?_) ?_ cs
  · exact absurd (h.symm.trans (isWordPart_eq_false_of_isBlank hblank)) (by decide)
  · rintro rfl
    exact absurd h (by decide)

theorem isDigit_eq_false_of_isAlpha {c : Char} (h : c.isAlpha = true) : c.isDigit = false := by
  have hletter : 'A'.val ≤ c.val := by
    rcases Bool.or_eq_true_iff.mp h with hupper | hlower
    · exact (of_decide_eq_true hupper).1
    · have hle : 'a'.val ≤ c.val := of_decide_eq_true (Bool.and_eq_true_iff.mp hlower).1
      exact UInt32.le_trans (by decide) hle
  refine Bool.eq_false_iff.mpr fun hdigit ↦ ?_
  have hle : c.val ≤ '9'.val := of_decide_eq_true (Bool.and_eq_true_iff.mp hdigit).2
  exact absurd (UInt32.le_trans hletter hle) (by decide)

theorem splitWhile_append {p : Char → Bool} {w : List Char} (cs : List Char)
    (hw : ∀ x ∈ w, p x = true) (hcs : ∀ c, cs.head? = some c → p c = false) :
    (w ++ cs).takeWhile p = w ∧ (w ++ cs).dropWhile p = cs := by
  rw [List.takeWhile_append_of_pos hw, List.dropWhile_append_of_pos hw]
  cases cs with
  | nil => simp
  | cons c cs => simp [hcs c rfl]

theorem next?_word {w cs : List Char} (hw : IsWord w) (hcs : Separate cs) :
    next? (w ++ cs) =
      some (((Fixed.ofText? (String.ofList w)).map fixed).getD (name (String.ofList w)), cs) := by
  obtain ⟨c, w, rfl, hc, hparts⟩ := hw
  obtain ⟨htake, hdrop⟩ := splitWhile_append cs hparts hcs
  rw [List.cons_append] at htake hdrop
  rw [List.cons_append, next?, skipGap_of_isWordPart (hparts c (by simp))]
  simp [isDigit_eq_false_of_isAlpha hc, hc, readWord, htake, hdrop]

/-! ### Numbers and string literals -/

/-- No digit follows. -/
def EndsDigits (cs : List Char) : Prop := ∀ c, cs.head? = some c → c.isDigit = false

theorem Separate.endsDigits {cs : List Char} (h : Separate cs) : EndsDigits cs := fun c hc ↦ by
  have hpart := h c hc
  simp only [isWordPart, Char.isAlphanum, Bool.or_eq_false_iff] at hpart
  exact hpart.1.2

theorem next?_digit {c : Char} (h : c.isDigit = true) (cs : List Char) :
    next? (c :: cs) = some (readNumber (c :: cs)) := by
  have hpart : isWordPart c = true := by simp [isWordPart, Char.isAlphanum, h]
  rw [next?, skipGap_of_isWordPart hpart]
  exact if_pos h

theorem next?_number {whole fraction cs : List Char} (hne : whole ≠ [])
    (hwhole : ∀ c ∈ whole, c.isDigit = true) (hfraction : ∀ c ∈ fraction, c.isDigit = true)
    (hend : EndsDigits cs) :
    next? (whole ++ '.' :: (fraction ++ cs)) =
      some (number (Decimal.ofDigits whole fraction), cs) := by
  obtain ⟨htake, hdrop⟩ := splitWhile_append ('.' :: (fraction ++ cs)) hwhole (by simp)
  obtain ⟨htake', hdrop'⟩ := splitWhile_append cs hfraction hend
  obtain ⟨c, whole, rfl⟩ := List.exists_cons_of_ne_nil hne
  rw [List.cons_append] at htake hdrop
  rw [List.cons_append, next?_digit (hwhole c (by simp))]
  simp [readNumber, htake, hdrop, htake', hdrop']

theorem next?_whole {whole cs : List Char} (hne : whole ≠ [])
    (hwhole : ∀ c ∈ whole, c.isDigit = true) (hend : EndsDigits cs) (hpoint : cs.head? ≠ some '.') :
    next? (whole ++ cs) = some (number (Decimal.ofDigits whole []), cs) := by
  obtain ⟨htake, hdrop⟩ := splitWhile_append cs hwhole hend
  obtain ⟨c, whole, rfl⟩ := List.exists_cons_of_ne_nil hne
  rw [List.cons_append] at htake hdrop
  rw [List.cons_append, next?_digit (hwhole c (by simp)), readNumber, hdrop, htake]
  split
  · exact absurd rfl hpoint
  · rfl

theorem next?_text {contents cs : List Char} (h : '"' ∉ contents) :
    next? ('"' :: (contents ++ '"' :: cs)) = some (text (String.ofList contents), cs) := by
  have hcontents : ∀ c ∈ contents, decide (c ≠ '"') = true :=
    fun c hc ↦ decide_eq_true fun heq ↦ h (heq ▸ hc)
  obtain ⟨htake, hdrop⟩ := splitWhile_append ('"' :: cs) hcontents (by simp)
  have hread : readText? (contents ++ '"' :: cs) = some (text (String.ofList contents), cs) := by
    rw [readText?, hdrop, htake]
  rw [next?, skipGap_of_not_isBlank (by decide) (by decide)]
  exact hread

namespace Reads

variable {MayFollow : List Char → Prop} {cs : List Char} {ts : List Token}

theorem sign {f : Fixed} {c : Char} (hc : isSign c = true)
    (hf : Fixed.ofText? (String.singleton c) = some f) (h : Reads MayFollow cs ts) :
    Reads MayFollow (c :: cs) (.fixed f :: ts) := by
  intro rest hrest
  have hnext := next?_sign hc (cs ++ rest)
  rw [ofChar, hf] at hnext
  rw [List.cons_append, ofChars_of_next? hnext, h rest hrest]
  rfl

theorem word {f : Fixed} (hw : IsWord f.text.toList) : Reads Separate f.text.toList [.fixed f] := by
  intro rest hrest
  have hnext := next?_word hw hrest
  rw [String.ofList_toList, Fixed.ofText?_text] at hnext
  exact ofChars_of_next? hnext

theorem name {ident : String} (h : IsLexeme (.name ident)) :
    Reads Separate ident.toList [.name ident] := by
  intro rest hrest
  have hnext := next?_word h.1 hrest
  rw [String.ofList_toList, h.2] at hnext
  exact ofChars_of_next? hnext

theorem number {whole fraction : List Char} (hne : whole ≠ [])
    (hwhole : ∀ c ∈ whole, c.isDigit = true) (hfraction : ∀ c ∈ fraction, c.isDigit = true) :
    Reads Separate (whole ++ '.' :: fraction) [.number (Decimal.ofDigits whole fraction)] := by
  intro rest hrest
  rw [List.append_assoc]
  exact ofChars_of_next? (next?_number hne hwhole hfraction hrest.endsDigits)

theorem text {contents : String} (h : IsLexeme (.text contents)) :
    Reads MayFollow ('"' :: (contents.toList ++ ['"'])) [.text contents] := by
  intro rest _
  have hnext : next? ('"' :: (contents.toList ++ '"' :: rest)) = some (.text contents, rest) := by
    rw [next?_text h, String.ofList_toList]
  rw [List.cons_append, List.append_assoc]
  exact ofChars_of_next? hnext

theorem operator (op : Operator) (h : Reads MayFollow cs ts) :
    Reads MayFollow (op.text.toList ++ cs) (.operator op :: ts) := by
  cases op <;> exact .sign rfl rfl h

/-- A reserved word with a blank behind it. -/
theorem wordBlank {f : Fixed} (hw : IsWord f.text.toList) (h : Reads MayFollow cs ts) :
    Reads MayFollow (f.text.toList ++ ' ' :: cs) (.fixed f :: ts) :=
  (word hw).append_cons rfl (.blank rfl h)

theorem keyword (k : Keyword) (h : Reads MayFollow cs ts) :
    Reads MayFollow (k.text.toList ++ ' ' :: cs) (.keyword k :: ts) := by
  refine wordBlank (f := .keyword k) ?_ h
  cases k <;> exact ⟨_, _, rfl, rfl, List.all_eq_true.mp rfl⟩

theorem typeWord (t : TypeWord) (h : Reads MayFollow cs ts) :
    Reads MayFollow (t.toTy.text.toList ++ ' ' :: cs) (.ty t :: ts) := by
  refine wordBlank (f := .ty t) ?_ h
  cases t <;> exact ⟨_, _, rfl, rfl, List.all_eq_true.mp rfl⟩

end Reads

end Token

end BlockCompiler
