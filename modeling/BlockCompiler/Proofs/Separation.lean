import BlockCompiler.Proofs.LongestMatch

/-!
# Reading behind a gap

A blank or a comment ends every token, so a text can be read in two parts if the second one starts
with either: its tokens are those of the first part and then those of the second
(`Token.reads_of_isClosed`). The first part must not stop the source, by a comment or a string
literal that is never closed. Whether it does can be computed (`Token.isClosed_iff`).

A comment starts with a character that is also a token, and the first part may end in that
character, in a number with its point or in the beginning of a reserved word. None of them goes on
with the comment.
-/

namespace BlockCompiler

namespace Token

/-! ## Where the source stops -/

/-- The source does not stop before the end of the text: no comment and no string literal is left
open. -/
def IsClosed (cs : List Char) : Prop := ∃ pieces, Divides cs pieces []

theorem snd_scan_of_next? {cs rest : List Char} {t : Token} (h : next? cs = some (t, rest)) :
    (scan cs).2 = (scan rest).2 := by
  rw [scan]
  split
  · next hnone => exact absurd (hnone.symm.trans h) (by simp)
  · next t' rest' hsome =>
    obtain ⟨rfl, rfl⟩ := Prod.mk.inj (Option.some.inj (hsome.symm.trans h))
    rfl

theorem snd_scan_of_none {cs : List Char} (h : next? cs = none) : (scan cs).2 = cs := by
  rw [scan]
  split
  · rfl
  · next hsome => exact absurd (h.symm.trans hsome) (by simp)

/-- Behind the last token of a closed text there is nothing but a gap. -/
theorem Divides.stop_eq_nil_iff {cs stop : List Char} {pieces : List Piece}
    (h : Divides cs pieces stop) : stop = [] ↔ skipGap false (scan cs).2 = some [] := by
  induction h with
  | @stop cs stops =>
    rw [snd_scan_of_none (next?_stops stops)]
    cases stops with
    | nil => simp [skipGap]
    | @comment cs notClosed =>
      rw [show skipGap false ('/' :: '*' :: cs) = skipGap true cs from rfl,
        skipGap_notClosed notClosed]
      simp
    | text =>
      rw [skipGap_of_not_isBlank (by decide) (by decide)]
      simp
  | @skip w cs _ _ isSkipped _ ih =>
    rw [ih]
    cases hnext : next? cs with
    | none =>
      rw [snd_scan_of_none hnext, snd_scan_of_none ((next?_skipped isSkipped cs).trans hnext),
        skipGap_skipped isSkipped]
    | some found =>
      rw [snd_scan_of_next? hnext,
        snd_scan_of_next? ((next?_skipped isSkipped cs).trans hnext)]
  | @take w cs _ _ _ goesOn noSkip takes _ ih =>
    rw [ih, snd_scan_of_next? (next?_takes goesOn noSkip takes)]

theorem isClosed_iff {cs : List Char} : IsClosed cs ↔ skipGap false (scan cs).2 = some [] := by
  constructor
  · rintro ⟨pieces, h⟩
    exact h.stop_eq_nil_iff.mp rfl
  · intro hgap
    obtain ⟨pieces, stop, h⟩ := exists_division cs
    obtain rfl := h.stop_eq_nil_iff.mpr hgap
    exact ⟨pieces, h⟩

instance (cs : List Char) : Decidable (IsClosed cs) := decidable_of_iff _ isClosed_iff.symm

/-! ## One token in front of a gap -/

/-- The text starts with a blank or with a complete comment. -/
def BeginsGap (cs : List Char) : Prop := ∃ s rest, cs = s ++ rest ∧ IsSkipped s

variable {cs ds rest : List Char} {c : Char} {t : Token}

theorem BeginsGap.head?_eq (h : BeginsGap ds) :
    ∃ d, ds.head? = some d ∧ (isBlank d = true ∨ d = '/') := by
  obtain ⟨_, rest, rfl, hs⟩ := h
  cases hs with
  | @blank d hd => exact ⟨d, rfl, .inl hd⟩
  | comment => exact ⟨'/', rfl, .inr rfl⟩

theorem BeginsGap.head?_ne (h : BeginsGap ds) (hc : isBlank c = false) (hslash : c ≠ '/') :
    ds.head? ≠ some c := by
  obtain ⟨d, hhead, hd⟩ := h.head?_eq
  intro heq
  obtain rfl := Option.some.inj (hhead.symm.trans heq)
  rcases hd with hd | hd
  · exact Bool.false_ne_true (hc.symm.trans hd)
  · exact hslash hd

theorem BeginsGap.separate (h : BeginsGap ds) : Separate ds := by
  obtain ⟨d, hhead, hd⟩ := h.head?_eq
  intro c hc
  obtain rfl := Option.some.inj (hhead.symm.trans hc)
  rcases hd with hd | rfl
  · exact isWordPart_eq_false_of_isBlank hd
  · decide

theorem splitWhile_append_stop {p : Char → Bool} (h : ∀ c, ds.head? = some c → p c = false) :
    (cs ++ ds).takeWhile p = cs.takeWhile p ∧ (cs ++ ds).dropWhile p = cs.dropWhile p ++ ds := by
  induction cs with
  | nil => simpa using splitWhile_append (w := []) ds nofun h
  | cons c cs ih => cases hc : p c <;> simp [hc, ih]

/-- Two characters stand at the front of a text, and not across its end. -/
theorem pair_prefix_of_append {a b : Char} (hds : ds.head? ≠ some b)
    (h : [a, b] <+: c :: (cs ++ ds)) : [a, b] <+: c :: cs := by
  obtain ⟨rfl, hb⟩ := List.cons_prefix_cons.mp h
  cases cs with
  | nil =>
    obtain ⟨rest, rfl⟩ := hb
    exact absurd rfl hds
  | cons d cs =>
    obtain ⟨rfl, -⟩ := List.cons_prefix_cons.mp hb
    exact ⟨cs, rfl⟩

theorem skipGap_append {b : Bool} (hds : BeginsGap ds) (h : skipGap b cs = some (c :: rest)) :
    skipGap b (cs ++ ds) = some (c :: (rest ++ ds)) := by
  fun_induction skipGap b cs with
  | case1 cs ih => exact ih h
  | case2 d cs hcomment hblank ih =>
    rw [List.cons_append, skipGap_of_isBlank hblank]
    exact ih h
  | case3 d cs hcomment hblank =>
    obtain ⟨rfl, rfl⟩ := List.cons.inj (Option.some.inj h)
    refine skipGap_of_not_comment (Bool.eq_false_iff.mpr hblank) fun hopen ↦ ?_
    obtain ⟨after, heq⟩ := pair_prefix_of_append (hds.head?_ne (by decide) (by decide)) hopen
    obtain ⟨rfl, rfl⟩ := List.cons.inj heq
    exact hcomment after rfl rfl
  | case4 => cases h
  | case5 cs ih => exact ih h
  | case6 d cs hclose ih =>
    -- the comment is closed further on, so that its end is not put together across the seam
    cases cs with
    | nil => cases h
    | cons e cs =>
      rw [List.cons_append, skipGap_true_cons]
      · exact ih h
      · rintro ⟨after, heq⟩
        obtain ⟨rfl, rfl, -⟩ := List.cons_eq_cons.mp heq |>.imp_right List.cons_eq_cons.mp
        exact hclose cs rfl rfl
  | case7 => cases h

theorem readNumber_append (hds : BeginsGap ds) :
    readNumber (cs ++ ds) = ((readNumber cs).1, (readNumber cs).2 ++ ds) := by
  have hend := hds.separate.endsDigits
  rw [readNumber, (splitWhile_append_stop hend).1, (splitWhile_append_stop hend).2, readNumber]
  cases cs.dropWhile Char.isDigit with
  | nil =>
    -- no fraction starts in the gap
    have hpoint : ds.head? ≠ some '.' := hds.head?_ne (by decide) (by decide)
    dsimp only [List.nil_append]
    split
    · exact absurd rfl hpoint
    · rfl
  | cons d rest =>
    by_cases hpoint : d = '.'
    · subst hpoint
      simp [(splitWhile_append_stop hend).1, (splitWhile_append_stop hend).2]
    · simp [hpoint]

theorem readWord_append (hds : BeginsGap ds) :
    readWord (cs ++ ds) = ((readWord cs).1, (readWord cs).2 ++ ds) := by
  rw [readWord, (splitWhile_append_stop hds.separate).1, (splitWhile_append_stop hds.separate).2]
  rfl

/-- A string literal ends with its quote, whatever follows. -/
theorem readText?_append (h : readText? cs = some (t, rest)) :
    readText? (cs ++ ds) = some (t, rest ++ ds) := by
  unfold readText? at h
  split at h
  · exact nomatch h
  · next quote after hdrop =>
    obtain ⟨rfl, rfl⟩ := Prod.mk.inj (Option.some.inj h)
    have hquote : decide (quote ≠ '"') = false := by
      have hhead := List.head?_dropWhile_not (· ≠ '"') cs
      rw [hdrop] at hhead
      simpa using hhead
    have hcontents : ∀ c ∈ cs.takeWhile (· ≠ '"'), decide (c ≠ '"') = true :=
      List.all_eq_true.mp List.all_takeWhile
    have hcs : cs ++ ds = cs.takeWhile (· ≠ '"') ++ quote :: (after ++ ds) := by
      rw [← List.cons_append, ← hdrop, ← List.append_assoc, List.takeWhile_append_dropWhile]
    obtain ⟨htake, hdrop'⟩ :=
      splitWhile_append (quote :: (after ++ ds)) hcontents (by simpa using hquote)
    rw [readText?, hcs, hdrop', htake]

/-- A token is read in front of a gap as it is at the end of the text. -/
theorem next?_append (hds : BeginsGap ds) (h : next? cs = some (t, rest)) :
    next? (cs ++ ds) = some (t, rest ++ ds) := by
  unfold next? at h
  split at h
  · exact nomatch h
  · exact nomatch h
  · next c r hgap =>
    rw [next?, skipGap_append hds hgap]
    dsimp only
    rw [← List.cons_append, readNumber_append hds, readWord_append hds]
    split at h
    · next hdigit =>
      rw [if_pos hdigit, Option.some.inj h]
    · next hdigit =>
      rw [if_neg hdigit]
      split at h
      · next halpha => rw [if_pos halpha, Option.some.inj h]
      · next halpha =>
        rw [if_neg halpha]
        split at h
        · next hquote => rw [if_pos hquote, readText?_append h]
        · next hquote =>
          obtain ⟨rfl, rfl⟩ := Prod.mk.inj (Option.some.inj h)
          rw [if_neg hquote]

/-! ## A closed text in front of a gap -/

/-- The tokens of a closed text are read from it in front of any text that starts with a gap. -/
theorem reads_of_isClosed (h : IsClosed cs) : Reads BeginsGap cs (ofChars cs) := by
  obtain ⟨pieces, h⟩ := h
  generalize hstop : ([] : List Char) = stop at h
  induction h with
  | stop =>
    subst hstop
    rw [ofChars_nil]
    exact .nil
  | @skip w cs _ _ isSkipped _ ih =>
    intro ds hds
    rw [ofChars_congr (next?_skipped isSkipped cs), List.append_assoc,
      ofChars_congr (next?_skipped isSkipped (cs ++ ds)), ih hstop ds hds]
  | @take w cs _ _ _ goesOn noSkip takes _ ih =>
    intro ds hds
    have hnext := next?_takes goesOn noSkip takes
    rw [ofChars_of_next? hnext, ofChars_of_next? (next?_append hds hnext), ih hstop ds hds]
    rfl

/-! ## Separators -/

/-- What may stand between two texts: blanks, at least one, or any number of blanks and then a
comment up to the first place where it is closed. -/
inductive IsSeparator : List Char → Prop
  | blanks {w : List Char} (nonempty : w ≠ []) (blank : ∀ c ∈ w, isBlank c = true) : IsSeparator w
  | comment {w body : List Char} (blank : ∀ c ∈ w, isBlank c = true)
      (notClosed : ¬['*', '/'] <:+: body ++ ['*']) :
      IsSeparator (w ++ '/' :: '*' :: (body ++ ['*', '/']))

theorem beginsGap_of_blanks {w : List Char} (hw : w ≠ []) (hblank : ∀ c ∈ w, isBlank c = true) :
    BeginsGap (w ++ cs) := by
  obtain ⟨c, rest, rfl⟩ := List.exists_cons_of_ne_nil hw
  exact ⟨[c], rest ++ cs, rfl, .blank (hblank c List.mem_cons_self)⟩

theorem IsSeparator.beginsGap {w : List Char} (h : IsSeparator w) : BeginsGap (w ++ cs) := by
  cases h with
  | blanks hw hblank => exact beginsGap_of_blanks hw hblank
  | @comment w _ hblank hclosed =>
    rw [List.append_assoc]
    by_cases hw : w = []
    · subst hw
      exact ⟨_, cs, rfl, .comment hclosed⟩
    · exact beginsGap_of_blanks hw hblank

/-- No token is read in a separator. -/
theorem IsSeparator.reads {w : List Char} (h : IsSeparator w) : Reads Anything w [] := by
  cases h with
  | blanks _ hblank => exact .gap hblank
  | @comment w body hblank hclosed =>
    have hcomment : Reads Anything ('/' :: '*' :: (body ++ ['*', '/'])) [] := fun ds _ ↦
      ofChars_congr (next?_skipped (.comment hclosed) ds)
    exact (Reads.gap hblank).append hcomment

theorem ofSource_append_of_isSeparator {a w b : String} (ha : IsClosed a.toList)
    (hw : IsSeparator w.toList) : ofSource (a ++ w ++ b) = ofSource a ++ ofSource b := by
  rw [ofSource_eq, String.toList_append, String.toList_append, List.append_assoc,
    reads_of_isClosed ha _ hw.beginsGap, hw.reads b.toList trivial]
  rfl

/-- Blanks between two texts, the first of which is closed, separate their tokens. -/
theorem ofSource_append {a w b : String} (ha : IsClosed a.toList) (hw : w ≠ "")
    (hblank : ∀ c ∈ w.toList, isBlank c = true) :
    ofSource (a ++ w ++ b) = ofSource a ++ ofSource b :=
  ofSource_append_of_isSeparator ha (.blanks (mt String.toList_eq_nil_iff.mp hw) hblank)

/-- A separator behind a closed text splits the tokens, whatever the texts on both sides of it are:
those of the first text come first and then those of the second. A reader gives out what the reader
of the first text does as long as that one has a token, and then what the reader of the second text
does, up to the end of the source and beyond. -/
theorem separator_splits {a w b : String} (ha : IsClosed a.toList) (hw : IsSeparator w.toList) :
    ofSource (a ++ w ++ b) = ofSource a ++ ofSource b ∧
      (∀ n < (ofSource a).length,
        ((Reader.ofSource (a ++ w ++ b)).after n).advance.1 =
          ((Reader.ofSource a).after n).advance.1) ∧
      ∀ n, ((Reader.ofSource (a ++ w ++ b)).after ((ofSource a).length + n)).advance.1 =
        ((Reader.ofSource b).after n).advance.1 := by
  have hanswer : ∀ (source : String) (n : Nat),
      ((Reader.ofSource source).after n).advance.1 = (ofSource source)[n]? :=
    fun source ↦ Reader.advance_after source.toList
  have hsplit := ofSource_append_of_isSeparator (b := b) ha hw
  refine ⟨hsplit, fun n hn ↦ ?_, fun n ↦ ?_⟩
  · rw [hanswer, hanswer, hsplit, List.getElem?_append_left hn]
  · rw [hanswer, hanswer, hsplit, List.getElem?_append_right (Nat.le_add_right _ n),
      Nat.add_sub_cancel_left]

/-- A slash in front of a comment starts none, a number with its point does not go on behind a
blank, and no reserved word is put together across one. -/
theorem separator_splits_numbers :
    ofSource ("12. /" ++ "\t/* a **/" ++ "5") = ofSource "12. /" ++ ofSource "5" ∧
      ofSource ("whi" ++ " \n" ++ "le") = ofSource "whi" ++ ofSource "le" := by
  have hcomment : IsSeparator "\t/* a **/".toList :=
    @IsSeparator.comment ['\t'] [' ', 'a', ' ', '*'] (List.all_eq_true.mp rfl) (by decide)
  have hblanks : IsSeparator " \n".toList := .blanks (by decide) (List.all_eq_true.mp (by decide))
  exact ⟨(separator_splits (by decide +kernel) hcomment).1,
    (separator_splits (by decide +kernel) hblanks).1⟩

end Token

end BlockCompiler
