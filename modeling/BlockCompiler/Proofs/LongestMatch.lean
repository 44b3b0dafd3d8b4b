import BlockCompiler.Proofs.Lexing

/-!
# Tokens by longest match

What the tokens of a text are, said without a way to find them. A text is divided from its front:
blanks and comments are skipped, and where there is nothing to skip the longest stretch that a rule
of the language matches is a lexeme, or one character if no rule matches anything. The source ends
at a comment or a string literal that is not closed, or with the text.

There is one division of a text (`Token.exists_division`, `Token.Divides.unique`), and the tokens
that are read are those of its lexemes (`Token.longest_match`).
-/

namespace BlockCompiler

/-- Among the prefixes of a list that have a property, there is a longest one. -/
theorem exists_longest_prefix {α : Type} {P : List α → Prop} {w cs : List α} (hw : P w)
    (hstart : w <+: cs) :
    ∃ w, P w ∧ w <+: cs ∧ ∀ w', P w' → w' <+: cs → w'.length ≤ w.length := by
  by_cases hlongest : ∀ w', P w' → w' <+: cs → w'.length ≤ w.length
  · exact ⟨w, hw, hstart, hlongest⟩
  · simp only [Classical.not_forall, Nat.not_le] at hlongest
    obtain ⟨w', hw', hstart', hlt⟩ := hlongest
    exact exists_longest_prefix hw' hstart'
termination_by cs.length - w.length
decreasing_by
  have := hstart'.length_le
  omega

namespace Token

/-! ## What is skipped -/

/-- A stretch that separates tokens: a blank, or a comment up to the first place where it is closed.
-/
inductive IsSkipped : List Char → Prop
  | blank {c : Char} (isBlank : isBlank c = true) : IsSkipped [c]
  | comment {body : List Char} (notClosed : ¬['*', '/'] <:+: body ++ ['*']) :
      IsSkipped ('/' :: '*' :: (body ++ ['*', '/']))

/-- The source ends here: with the text, or at a comment or a string literal that is never closed.
-/
inductive Stops : List Char → Prop
  | nil : Stops []
  | comment {cs : List Char} (notClosed : ¬['*', '/'] <:+: cs) : Stops ('/' :: '*' :: cs)
  | text {cs : List Char} (notClosed : '"' ∉ cs) : Stops ('"' :: cs)

/-! ## What is matched -/

/-- The rules of the language: the characters are a token. -/
inductive Matches : List Char → Token → Prop
  | whole {whole : List Char} (nonempty : whole ≠ [])
      (digits : ∀ c ∈ whole, c.isDigit = true) :
      Matches whole (.number (Decimal.ofDigits whole []))
  | fraction {whole fraction : List Char} (nonempty : whole ≠ [])
      (digits : ∀ c ∈ whole, c.isDigit = true)
      (fractionDigits : ∀ c ∈ fraction, c.isDigit = true) :
      Matches (whole ++ '.' :: fraction) (.number (Decimal.ofDigits whole fraction))
  | text {contents : List Char} (noQuote : '"' ∉ contents) :
      Matches ('"' :: (contents ++ ['"'])) (.text (String.ofList contents))
  | name {w : List Char} (isWord : IsWord w) : Matches w (.name (String.ofList w))
  | fixed (f : Fixed) : Matches f.text.toList (.fixed f)

/-- The token at the front of a text: the longest stretch that a rule matches, which is no name if
it is reserved, or a single character where no rule matches. -/
inductive Takes (cs : List Char) : List Char → Token → Prop
  | rule {w : List Char} {t : Token} (isMatch : Matches w t) (isPrefix : w <+: cs)
      (longest : ∀ w' t', Matches w' t' → w' <+: cs → w'.length ≤ w.length)
      (reserved : ∀ f : Fixed, w = f.text.toList → t = .fixed f) : Takes cs w t
  | char {c : Char} (isPrefix : [c] <+: cs) (noMatch : ∀ w t, Matches w t → ¬w <+: cs) :
      Takes cs [c] (.char c)

/-! ## Divisions -/

/-- A piece of a source text. -/
inductive Piece where
  | skipped (text : List Char)
  | lexeme (text : List Char) (token : Token)

namespace Piece

def text : Piece → List Char
  | skipped text | lexeme text _ => text

def token? : Piece → Option Token
  | skipped _ => none
  | lexeme _ token => some token

end Piece

/-- A text is divided into pieces, up to where its source ends. -/
inductive Divides : List Char → List Piece → List Char → Prop
  | stop {cs : List Char} (stops : Stops cs) : Divides cs [] cs
  | skip {w cs stop : List Char} {pieces : List Piece} (isSkipped : IsSkipped w)
      (others : Divides cs pieces stop) : Divides (w ++ cs) (.skipped w :: pieces) stop
  | take {w cs stop : List Char} {t : Token} {pieces : List Piece}
      (goesOn : ¬Stops (w ++ cs)) (noSkip : ∀ s, IsSkipped s → ¬s <+: w ++ cs)
      (takes : Takes (w ++ cs) w t) (others : Divides cs pieces stop) :
      Divides (w ++ cs) (.lexeme w t :: pieces) stop

/-! ## Comments -/

/-- A comment that is closed somewhere is closed at a first place. -/
theorem exists_comment {cs : List Char} (h : ['*', '/'] <:+: cs) :
    ∃ body rest, cs = body ++ '*' :: '/' :: rest ∧ ¬['*', '/'] <:+: body ++ ['*'] := by
  induction cs with
  | nil => exact absurd h.length_le (by simp)
  | cons c cs ih =>
    by_cases hhere : ['*', '/'] <+: c :: cs
    · obtain ⟨rest, hrest⟩ := hhere
      exact ⟨[], rest, hrest.symm, fun h ↦ absurd h.length_le (by simp)⟩
    · obtain ⟨body, rest, rfl, hbody⟩ := ih ((List.infix_cons_iff.mp h).resolve_left hhere)
      refine ⟨c :: body, rest, rfl, fun hinfix ↦ ?_⟩
      rcases List.infix_cons_iff.mp hinfix with hstart | hinfix
      · refine hhere (hstart.trans ?_)
        exact ⟨'/' :: rest, by simp⟩
      · exact hbody hinfix

/-- There is only one first place. -/
theorem length_le_of_comment {body body' cs : List Char} (h : body ++ ['*', '/'] <+: cs)
    (h' : body' ++ ['*', '/'] <+: cs) (hbody' : ¬['*', '/'] <:+: body' ++ ['*']) :
    body'.length ≤ body.length := by
  refine Nat.le_of_not_lt fun hlt ↦ hbody' ?_
  have hshort : body' ++ ['*'] <+: cs := (show body' ++ ['*'] <+: body' ++ ['*', '/'] from
    ⟨['/'], by simp⟩).trans h'
  have hclosed : body ++ ['*', '/'] <+: body' ++ ['*'] :=
    List.prefix_of_prefix_length_le h hshort (by simp; omega)
  exact (List.suffix_append body ['*', '/']).isInfix.trans hclosed.isInfix

theorem isBlank_of_front {c d : Char} {cs : List Char} (hblank : isBlank c = true)
    (h : [c] <+: d :: cs) : isBlank d = true :=
  (List.cons_prefix_cons.mp h).1 ▸ hblank

theorem IsSkipped.unique {s s' cs : List Char} (h : IsSkipped s) (h' : IsSkipped s')
    (hs : s <+: cs) (hs' : s' <+: cs) : s = s' := by
  have hlength : s.length = s'.length → s = s' := fun heq ↦
    (List.prefix_of_prefix_length_le hs hs' (Nat.le_of_eq heq)).eq_of_length heq
  cases h with
  | blank hblank =>
    cases h' with
    | blank => exact hlength rfl
    | comment =>
      obtain ⟨rest, rfl⟩ := hs'
      exact absurd (isBlank_of_front hblank hs) (by decide)
  | @comment body hbody =>
    cases h' with
    | blank hblank =>
      obtain ⟨rest, rfl⟩ := hs
      exact absurd (isBlank_of_front hblank hs') (by decide)
    | @comment body' hbody' =>
      refine hlength ?_
      obtain ⟨rest, rfl⟩ := hs
      have hclosed : body' ++ ['*', '/'] <+: body ++ ['*', '/'] ++ rest := by
        simpa using hs'
      have hle := length_le_of_comment (List.prefix_append _ rest) hclosed hbody'
      have hge := length_le_of_comment hclosed (List.prefix_append _ rest) hbody
      simp only [List.length_cons, List.length_append, List.length_nil]
      omega

/-- Where the source ends there is nothing to skip. -/
theorem Stops.not_skipped {s cs : List Char} (h : Stops cs) (hs : IsSkipped s) : ¬s <+: cs := by
  intro hstart
  cases h with
  | nil => cases hs <;> exact absurd hstart.length_le (by simp)
  | comment notClosed =>
    cases hs with
    | blank hblank => exact absurd (isBlank_of_front hblank hstart) (by decide)
    | @comment body =>
      have hclosed : body ++ ['*', '/'] <+: _ :=
        (List.cons_prefix_cons.mp (List.cons_prefix_cons.mp hstart).2).2
      exact notClosed ((List.suffix_append body _).isInfix.trans hclosed.isInfix)
  | text =>
    cases hs with
    | blank hblank => exact absurd (isBlank_of_front hblank hstart) (by decide)
    | comment => exact absurd (List.cons_prefix_cons.mp hstart).1 (by decide)

/-! ## Gaps -/

theorem skipGap_true_cons {c : Char} {cs : List Char} (h : ¬['*', '/'] <+: c :: cs) :
    skipGap true (c :: cs) = skipGap true cs := by
  rw [skipGap.eq_def]
  split
  · next heq _ => exact nomatch heq
  · next heq _ => exact nomatch heq
  · next heq _ => exact nomatch heq
  · next rest _ heq =>
    rw [heq] at h
    exact absurd ⟨rest, rfl⟩ h
  · next heq =>
    obtain ⟨rfl, rfl⟩ := List.cons.inj heq
    rfl
  · next heq => exact nomatch heq

theorem skipGap_comment {body : List Char} (h : ¬['*', '/'] <:+: body ++ ['*'])
    (cs : List Char) : skipGap true (body ++ '*' :: '/' :: cs) = skipGap false cs := by
  induction body with
  | nil => rfl
  | cons c body ih =>
    have hhere : ¬['*', '/'] <+: c :: (body ++ '*' :: '/' :: cs) := fun hstart ↦ by
      refine h (List.prefix_of_prefix_length_le hstart ?_ (by simp)).isInfix
      exact ⟨'/' :: cs, by simp⟩
    rw [List.cons_append, skipGap_true_cons hhere,
      ih fun hinfix ↦ h (List.infix_cons_iff.mpr (.inr hinfix))]

theorem skipGap_notClosed {cs : List Char} (h : ¬['*', '/'] <:+: cs) : skipGap true cs = none := by
  induction cs with
  | nil => rfl
  | cons c cs ih =>
    rw [skipGap_true_cons fun hstart ↦ h hstart.isInfix,
      ih fun hinfix ↦ h (List.infix_cons_iff.mpr (.inr hinfix))]

theorem skipGap_skipped {s : List Char} (h : IsSkipped s) (cs : List Char) :
    skipGap false (s ++ cs) = skipGap false cs := by
  cases h with
  | blank hblank => exact skipGap_of_isBlank hblank cs
  | comment hbody =>
    rw [List.cons_append, List.cons_append, List.append_assoc]
    exact skipGap_comment hbody cs

theorem next?_skipped {s : List Char} (h : IsSkipped s) (cs : List Char) :
    next? (s ++ cs) = next? cs := by
  rw [next?, skipGap_skipped h, next?]

theorem next?_stops {cs : List Char} (h : Stops cs) : next? cs = none := by
  cases h with
  | nil => rfl
  | comment notClosed =>
    rw [next?, skipGap, skipGap_notClosed notClosed]
  | @text cs notClosed =>
    have hread : readText? cs = none := by
      have hdrop := (splitWhile_append (p := (· ≠ '"')) (w := cs) []
        (fun c hc ↦ decide_eq_true fun heq ↦ notClosed (heq ▸ hc)) (by simp)).2
      rw [List.append_nil] at hdrop
      rw [readText?, hdrop]
    rw [next?, skipGap_of_not_isBlank (by decide) (by decide)]
    exact hread

/-- Where there is nothing to skip, the next token starts. -/
theorem skipGap_self {cs : List Char} (goesOn : ¬Stops cs)
    (noSkip : ∀ s, IsSkipped s → ¬s <+: cs) : skipGap false cs = some cs := by
  cases cs with
  | nil => exact absurd .nil goesOn
  | cons c cs =>
    have hblank : isBlank c = false :=
      Bool.eq_false_iff.mpr fun hblank ↦ noSkip [c] (.blank hblank) ⟨cs, rfl⟩
    refine skipGap_of_not_comment hblank fun ⟨rest, hrest⟩ ↦ ?_
    -- A comment would either be closed or be the end of the source.
    rw [← hrest] at goesOn noSkip
    by_cases hclosed : ['*', '/'] <:+: rest
    · obtain ⟨body, after, rfl, hbody⟩ := exists_comment hclosed
      exact noSkip _ (.comment hbody) ⟨after, by simp⟩
    · exact goesOn (.comment hclosed)

/-! ## Lexemes -/

/-- What follows a longest match does not go on with one. -/
theorem head?_ne_of_longest {w rest : List Char} {c : Char} {t : Token}
    (longest : ∀ w' t', Matches w' t' → w' <+: w ++ rest → w'.length ≤ w.length)
    (h : Matches (w ++ [c]) t) : rest.head? ≠ some c := by
  intro hhead
  obtain ⟨ds, rfl⟩ := List.head?_eq_some_iff.mp hhead
  have hle := longest _ _ h ⟨ds, by simp⟩
  simp only [List.length_append, List.length_singleton] at hle
  omega

theorem IsWord.concat {w : List Char} {c : Char} (h : IsWord w) (hc : isWordPart c = true) :
    IsWord (w ++ [c]) := by
  obtain ⟨first, rest, rfl, hfirst, hparts⟩ := h
  exact ⟨first, rest ++ [c], rfl, hfirst,
    List.forall_mem_append.mpr ⟨hparts, List.forall_mem_singleton.mpr hc⟩⟩

/-- A longest match that is a word ends where the word does. -/
theorem separate_of_longest {w rest : List Char} (h : IsWord w)
    (longest : ∀ w' t', Matches w' t' → w' <+: w ++ rest → w'.length ≤ w.length) :
    Separate rest := fun _ hc ↦
  Bool.eq_false_iff.mpr fun hpart ↦
    head?_ne_of_longest longest (.name (h.concat hpart)) hc

/-- A token with a single spelling is a word or a sign. -/
theorem isWord_or_isSign (f : Fixed) :
    IsWord f.text.toList ∨ ∃ c, f.text.toList = [c] ∧ isSign c = true := by
  rcases f with k | t | o | m
  · cases k <;> exact .inl ⟨_, _, rfl, rfl, List.all_eq_true.mp rfl⟩
  · cases t <;> exact .inl ⟨_, _, rfl, rfl, List.all_eq_true.mp rfl⟩
  · cases o <;> exact .inr ⟨_, rfl, rfl⟩
  · cases m <;> exact .inr ⟨_, rfl, rfl⟩

theorem text_injective {f g : Fixed} (h : f.text.toList = g.text.toList) : f = g := by
  have htext : f.text = g.text := String.toList_injective h
  exact Option.some.inj ((Fixed.ofText?_text f).symm.trans (htext ▸ Fixed.ofText?_text g))

theorem next?_matches {w rest : List Char} {t : Token} (h : Matches w t)
    (longest : ∀ w' t', Matches w' t' → w' <+: w ++ rest → w'.length ≤ w.length)
    (reserved : ∀ f : Fixed, w = f.text.toList → t = .fixed f) :
    next? (w ++ rest) = some (t, rest) := by
  cases h with
  | whole nonempty digits =>
    refine next?_whole nonempty digits (fun c hc ↦ Bool.eq_false_iff.mpr fun hdigit ↦ ?_) ?_
    · have hdigits := List.forall_mem_append.mpr ⟨digits, List.forall_mem_singleton.mpr hdigit⟩
      exact head?_ne_of_longest longest (.whole (by simp) hdigits) hc
    · exact head?_ne_of_longest longest (.fraction nonempty digits nofun)
  | @fraction whole fraction nonempty digits fractionDigits =>
    rw [List.append_assoc]
    refine next?_number nonempty digits fractionDigits
      fun c hc ↦ Bool.eq_false_iff.mpr fun hdigit ↦ ?_
    have hlonger : Matches (whole ++ '.' :: (fraction ++ [c])) _ :=
      .fraction nonempty digits
        (List.forall_mem_append.mpr ⟨fractionDigits, List.forall_mem_singleton.mpr hdigit⟩)
    rw [← List.cons_append, ← List.append_assoc] at hlonger
    exact head?_ne_of_longest longest hlonger hc
  | text noQuote =>
    rw [List.cons_append, List.append_assoc]
    exact next?_text noQuote
  | name isWord =>
    rw [next?_word isWord (separate_of_longest isWord longest)]
    cases hfixed : Fixed.ofText? (String.ofList w) with
    | none => rfl
    | some f =>
      have htext : w = f.text.toList := by
        rw [Fixed.text_of_ofText? hfixed, String.toList_ofList]
      exact nomatch reserved f htext
  | fixed f =>
    rcases isWord_or_isSign f with hword | ⟨c, hc, hsign⟩
    · rw [next?_word hword (separate_of_longest hword longest), String.ofList_toList,
        Fixed.ofText?_text]
      rfl
    · have hfixed : Fixed.ofText? (String.singleton c) = some f := by
        rw [show String.singleton c = f.text from String.toList_injective (by simp [hc]),
          Fixed.ofText?_text]
      have hnext := next?_sign hsign rest
      rw [ofChar, hfixed] at hnext
      rw [hc]
      exact hnext

/-- Where no rule matches, the next character is read as it is. -/
theorem next?_char {c : Char} {rest : List Char} (goesOn : ¬Stops (c :: rest))
    (noSkip : ∀ s, IsSkipped s → ¬s <+: c :: rest)
    (noMatch : ∀ w t, Matches w t → ¬w <+: c :: rest) :
    next? (c :: rest) = some (char c, rest) := by
  have hfront : [c] <+: c :: rest := ⟨rest, rfl⟩
  have hdigit : c.isDigit = false := Bool.eq_false_iff.mpr fun hdigit ↦
    noMatch _ _ (.whole (by simp) (List.forall_mem_singleton.mpr hdigit)) hfront
  have halpha : c.isAlpha = false := Bool.eq_false_iff.mpr fun halpha ↦
    noMatch _ _ (.name ⟨c, [], rfl, halpha, List.forall_mem_singleton.mpr
      (by simp [isWordPart, Char.isAlphanum, halpha])⟩) hfront
  have hquote : c ≠ '"' := by
    rintro rfl
    by_cases hclosed : '"' ∈ rest
    · obtain ⟨contents, after, rfl, hcontents⟩ := List.eq_append_cons_of_mem hclosed
      exact noMatch _ _ (.text hcontents) ⟨after, by simp⟩
    · exact goesOn (.text hclosed)
  have hfixed : Fixed.ofText? (String.singleton c) = none := by
    refine Option.eq_none_iff_forall_ne_some.mpr fun f hf ↦ noMatch _ _ (.fixed f) ?_
    rw [Fixed.text_of_ofText? hf]
    simp
  rw [next?, skipGap_self goesOn noSkip]
  simp [hdigit, halpha, hquote, ofChar, hfixed]

/-- What stands at the front of a text where nothing is skipped is read. -/
theorem next?_takes {w rest : List Char} {t : Token} (goesOn : ¬Stops (w ++ rest))
    (noSkip : ∀ s, IsSkipped s → ¬s <+: w ++ rest) (h : Takes (w ++ rest) w t) :
    next? (w ++ rest) = some (t, rest) := by
  cases h with
  | rule isMatch _ longest reserved => exact next?_matches isMatch longest reserved
  | char _ noMatch => exact next?_char goesOn noSkip noMatch

theorem exists_takes {cs : List Char} (h : cs ≠ []) :
    ∃ w t rest, cs = w ++ rest ∧ Takes cs w t := by
  by_cases hmatch : ∃ w t, Matches w t ∧ w <+: cs
  · obtain ⟨w₀, t₀, hmatch, hstart⟩ := hmatch
    obtain ⟨w, ⟨t, hmatch⟩, ⟨rest, rfl⟩, longest⟩ :=
      exists_longest_prefix (P := fun w ↦ ∃ t, Matches w t) ⟨t₀, hmatch⟩ hstart
    have longest : ∀ w' t', Matches w' t' → w' <+: w ++ rest → w'.length ≤ w.length :=
      fun w' t' h' ↦ longest w' ⟨t', h'⟩
    by_cases hfixed : ∃ f : Fixed, w = f.text.toList
    · obtain ⟨f, rfl⟩ := hfixed
      exact ⟨_, .fixed f, rest, rfl, .rule (.fixed f) ⟨rest, rfl⟩ longest
        fun g hg ↦ congrArg Token.fixed (text_injective hg)⟩
    · exact ⟨w, t, rest, rfl, .rule hmatch ⟨rest, rfl⟩ longest fun f hf ↦ absurd ⟨f, hf⟩ hfixed⟩
  · obtain ⟨c, rest, rfl⟩ := List.exists_cons_of_ne_nil h
    exact ⟨[c], .char c, rest, rfl, .char ⟨rest, rfl⟩ fun w t h hstart ↦ hmatch ⟨w, t, h, hstart⟩⟩

/-! ## The division of a text -/

theorem exists_division (cs : List Char) : ∃ pieces stop, Divides cs pieces stop := by
  by_cases hstops : Stops cs
  · exact ⟨[], cs, .stop hstops⟩
  · by_cases hskip : ∃ s, IsSkipped s ∧ s <+: cs
    · obtain ⟨s, hs, rest, rfl⟩ := hskip
      have hlt : rest.length < (s ++ rest).length := by
        cases hs with
        | blank => simp
        | comment => simp; omega
      obtain ⟨pieces, stop, h⟩ := exists_division rest
      exact ⟨_, stop, .skip hs h⟩
    · have noSkip : ∀ s, IsSkipped s → ¬s <+: cs := fun s hs hstart ↦ hskip ⟨s, hs, hstart⟩
      have hne : cs ≠ [] := fun hnil ↦ hstops (hnil ▸ .nil)
      obtain ⟨w, t, rest, rfl, htakes⟩ := exists_takes hne
      have hlt := length_next? (next?_takes hstops noSkip htakes)
      obtain ⟨pieces, stop, h⟩ := exists_division rest
      exact ⟨_, stop, .take hstops noSkip htakes h⟩
termination_by cs.length

namespace Divides

variable {cs stop stop' : List Char} {pieces pieces' : List Piece}

theorem unique (h : Divides cs pieces stop) (h' : Divides cs pieces' stop') :
    pieces = pieces' ∧ stop = stop' := by
  induction h generalizing pieces' stop' with
  | stop stops =>
    cases h' with
    | stop => exact ⟨rfl, rfl⟩
    | skip isSkipped => exact absurd ⟨_, rfl⟩ (stops.not_skipped isSkipped)
    | take goesOn => exact absurd stops goesOn
  | @skip w cs _ _ isSkipped others ih =>
    generalize hds : w ++ cs = ds at h'
    cases h' with
    | stop stops => exact absurd ⟨_, hds⟩ (stops.not_skipped isSkipped)
    | skip isSkipped' others' =>
      obtain rfl := isSkipped.unique isSkipped' ⟨_, hds⟩ ⟨_, rfl⟩
      obtain rfl := List.append_cancel_left hds
      obtain ⟨rfl, rfl⟩ := ih others'
      exact ⟨rfl, rfl⟩
    | take _ noSkip => exact absurd ⟨_, hds⟩ (noSkip w isSkipped)
  | @take w cs _ _ _ goesOn noSkip takes others ih =>
    generalize hds : w ++ cs = ds at h'
    cases h' with
    | stop stops => exact absurd (hds ▸ stops) goesOn
    | skip isSkipped' => exact absurd ⟨_, hds.symm⟩ (noSkip _ isSkipped')
    | take goesOn' noSkip' takes' others' =>
      have hnext := next?_takes goesOn noSkip takes
      rw [hds, next?_takes goesOn' noSkip' takes'] at hnext
      obtain ⟨rfl, rfl⟩ := Prod.mk.inj (Option.some.inj hnext)
      obtain rfl := List.append_cancel_right hds
      obtain ⟨rfl, rfl⟩ := ih others'
      exact ⟨rfl, rfl⟩

/-- Every character belongs to one piece, or stands where the source has ended. -/
theorem text_eq (h : Divides cs pieces stop) : cs = pieces.flatMap Piece.text ++ stop := by
  induction h with
  | stop => rfl
  | skip _ _ ih | take _ _ _ _ ih =>
    rw [List.flatMap_cons, List.append_assoc, ← ih]
    rfl

/-- The tokens that are read are those of the lexemes. -/
theorem tokens_eq (h : Divides cs pieces stop) : ofChars cs = pieces.filterMap Piece.token? := by
  induction h with
  | stop stops => exact ofChars_of_none (next?_stops stops)
  | skip isSkipped _ ih => rw [ofChars_congr (next?_skipped isSkipped _), ih]; rfl
  | take goesOn noSkip takes _ ih =>
    rw [ofChars_of_next? (next?_takes goesOn noSkip takes), ih]
    rfl

end Divides

end Token

namespace Reader

variable {cs rest : List Char} {t : Token}

theorem advance_of_some (h : Token.next? cs = some (t, rest)) :
    (⟨cs, false⟩ : Reader).advance = (some t, ⟨rest, false⟩) := by
  simp [advance, h]

theorem advance_of_none (h : Token.next? cs = none) :
    (⟨cs, false⟩ : Reader).advance = (none, ⟨[], true⟩) := by
  simp [advance, h]

theorem advance_after_of_finished (n : Nat) : ((⟨[], true⟩ : Reader).after n).advance.1 = none := by
  induction n with
  | zero => rfl
  | succ n ih => exact ih

/-- The requests are answered with the tokens in their order, and then there is none any more. -/
theorem advance_after (cs : List Char) (n : Nat) :
    ((⟨cs, false⟩ : Reader).after n).advance.1 = (Token.ofChars cs)[n]? := by
  induction n generalizing cs with
  | zero =>
    rw [after]
    cases hnext : Token.next? cs with
    | none => rw [advance_of_none hnext, Token.ofChars_of_none hnext, List.getElem?_nil]
    | some found =>
      rw [advance_of_some hnext, Token.ofChars_of_next? hnext, List.getElem?_cons_zero]
  | succ n ih =>
    rw [after]
    cases hnext : Token.next? cs with
    | none =>
      rw [advance_of_none hnext, Token.ofChars_of_none hnext, advance_after_of_finished,
        List.getElem?_nil]
    | some found =>
      rw [advance_of_some hnext, Token.ofChars_of_next? hnext, ih, List.getElem?_cons_succ]

end Reader

/-- The tokens of a source text are those of its one division into blanks, comments and longest
matches, which accounts for every character up to where the source ends. Requested one by one, they
come in this order, and then there is none any more. -/
theorem Token.longest_match (source : String) :
    ∃ pieces stop, Token.Divides source.toList pieces stop ∧
      (∀ pieces' stop', Token.Divides source.toList pieces' stop' →
        pieces' = pieces ∧ stop' = stop) ∧
      source.toList = pieces.flatMap Token.Piece.text ++ stop ∧
      Token.ofSource source = pieces.filterMap Token.Piece.token? ∧
      ∀ n, ((Reader.ofSource source).after n).advance.1 =
        (pieces.filterMap Token.Piece.token?)[n]? := by
  obtain ⟨pieces, stop, h⟩ := Token.exists_division source.toList
  refine ⟨pieces, stop, h, fun _ _ h' ↦ h'.unique h, h.text_eq, h.tokens_eq, fun n ↦ ?_⟩
  rw [Reader.ofSource, Reader.advance_after, h.tokens_eq]

end BlockCompiler
