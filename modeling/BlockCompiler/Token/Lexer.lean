import BlockCompiler.Token

/-!
# Reading tokens

Tokens are separated by blanks and by block comments, which do not nest. A comment or a string
literal that is never closed ends the source, and so does the end of the text. `Token.next?` reads
one token and returns what follows it; `Token.scan` reads all of them, and a `Reader` gives them out
one by one.

A word, a number or a string literal is as long as possible. A number is a run of digits with an
optional fraction, which may be empty: `12.` is a number, `.5` is not. Words are letters, digits and
underscores after a letter; only ASCII letters and digits count. A character that starts nothing is
a token of its own.
-/

namespace BlockCompiler

/-- The characters that separate tokens. -/
def isBlank (c : Char) : Bool :=
  c = ' ' || c = '\t' || c = '\n' || c = '\r' || c = '\x0b' || c = '\x0c'

/-- The characters of a word after its first letter. -/
def isWordPart (c : Char) : Bool := c.isAlphanum || c = '_'

namespace Token

/-- Drops blanks and comments; `inComment` says whether the text starts within a comment. There is
no result if a comment is never closed. -/
def skipGap : Bool → List Char → Option (List Char)
  | false, '/' :: '*' :: rest => skipGap true rest
  | false, c :: rest => if isBlank c then skipGap false rest else some (c :: rest)
  | false, [] => some []
  | true, '*' :: '/' :: rest => skipGap false rest
  | true, _ :: rest => skipGap true rest
  | true, [] => none

/-- Reads a number that starts with a digit. -/
def readNumber (cs : List Char) : Token × List Char :=
  let whole := cs.takeWhile Char.isDigit
  match cs.dropWhile Char.isDigit with
  | '.' :: rest =>
    (number (Decimal.ofDigits whole (rest.takeWhile Char.isDigit)), rest.dropWhile Char.isDigit)
  | rest => (number (Decimal.ofDigits whole []), rest)

/-- Reads a word: a reserved word or a name. -/
def readWord (cs : List Char) : Token × List Char :=
  let word := String.ofList (cs.takeWhile isWordPart)
  (((Fixed.ofText? word).map fixed).getD (name word), cs.dropWhile isWordPart)

/-- Reads a string literal after its opening quote. -/
def readText? (cs : List Char) : Option (Token × List Char) :=
  match cs.dropWhile (· ≠ '"') with
  | [] => none
  | _ :: rest => some (text (String.ofList (cs.takeWhile (· ≠ '"'))), rest)

def ofChar (c : Char) : Token :=
  ((Fixed.ofText? (String.singleton c)).map fixed).getD (char c)

/-- Reads the next token; there is none at the end of the source. -/
def next? (cs : List Char) : Option (Token × List Char) :=
  match skipGap false cs with
  | none => none
  | some [] => none
  | some (c :: rest) =>
    if c.isDigit then some (readNumber (c :: rest))
    else if c.isAlpha then some (readWord (c :: rest))
    else if c = '"' then readText? rest
    else some (ofChar c, rest)

/-! ## Reading moves forward -/

theorem skipGap_length {b : Bool} {cs rest : List Char} (h : skipGap b cs = some rest) :
    rest.length ≤ cs.length := by
  fun_induction skipGap b cs with
  | case1 r ih => have := ih h; simp only [List.length_cons]; omega
  | case2 c r _ _ ih => have := ih h; simp only [List.length_cons]; omega
  | case3 => simp_all
  | case4 => simp_all
  | case5 r ih => have := ih h; simp only [List.length_cons]; omega
  | case6 _ r _ ih => have := ih h; simp only [List.length_cons]; omega
  | case7 => simp at h

private theorem length_dropWhile_le {α : Type} (p : α → Bool) (xs : List α) :
    (xs.dropWhile p).length ≤ xs.length :=
  (List.dropWhile_suffix p).length_le

theorem length_readNumber {c : Char} (cs : List Char) (h : c.isDigit) :
    (readNumber (c :: cs)).2.length < (c :: cs).length := by
  have hle := length_dropWhile_le Char.isDigit cs
  rw [readNumber, List.dropWhile_cons_of_pos h]
  split
  · next rest hrest =>
    have := length_dropWhile_le Char.isDigit rest
    simp only [hrest, List.length_cons] at hle ⊢
    omega
  · simp only [List.length_cons]
    omega

theorem length_readWord {c : Char} (cs : List Char) (h : c.isAlpha) :
    (readWord (c :: cs)).2.length < (c :: cs).length := by
  have hle := length_dropWhile_le isWordPart cs
  have hc : isWordPart c = true := by simp [isWordPart, Char.isAlphanum, h]
  simp only [readWord, List.dropWhile_cons_of_pos hc, List.length_cons]
  omega

theorem length_readText? {cs rest : List Char} {t : Token} (h : readText? cs = some (t, rest)) :
    rest.length < cs.length := by
  have hle := length_dropWhile_le (· ≠ '"') cs
  unfold readText? at h
  split at h
  · simp at h
  · next c r hr =>
    obtain ⟨-, rfl⟩ := Prod.mk.inj (Option.some.inj h)
    simp only [hr, List.length_cons] at hle
    omega

/-- A token is at least one character long. -/
theorem length_next? {cs rest : List Char} {t : Token} (h : next? cs = some (t, rest)) :
    rest.length < cs.length := by
  unfold next? at h
  split at h
  · simp at h
  · simp at h
  · next c r hr =>
    have hle := skipGap_length hr
    split at h
    · next hc =>
      have := length_readNumber r hc
      rw [Option.some.inj h] at this
      exact Nat.lt_of_lt_of_le this hle
    · split at h
      · next hc =>
        have := length_readWord r hc
        rw [Option.some.inj h] at this
        exact Nat.lt_of_lt_of_le this hle
      · split at h
        · have := length_readText? h
          simp only [List.length_cons] at hle
          omega
        · obtain ⟨-, rfl⟩ := Prod.mk.inj (Option.some.inj h)
          exact hle

/-! ## The tokens of a text -/

/-- The tokens of a text, and what is left where its source ends. -/
def scan (cs : List Char) : List Token × List Char :=
  match h : next? cs with
  | none => ([], cs)
  | some (t, rest) =>
    have : rest.length < cs.length := length_next? h
    let (ts, stop) := scan rest
    (t :: ts, stop)
termination_by cs.length

def ofSource (source : String) : List Token := (scan source.toList).1

end Token

/-! ## One token at a time -/

/-- A text that is read on request: what is left of it, and whether its source has ended. -/
structure Reader where
  left : List Char
  finished : Bool

namespace Reader

def ofSource (source : String) : Reader := ⟨source.toList, false⟩

/-- Answers a request for a token. Once there is none, there is never one again. -/
def advance (r : Reader) : Option Token × Reader :=
  if r.finished then (none, r)
  else
    match Token.next? r.left with
    | some (t, rest) => (some t, { r with left := rest })
    | none => (none, { left := [], finished := true })

/-- The reader after a number of requests. -/
def after (r : Reader) : Nat → Reader
  | 0 => r
  | n + 1 => r.advance.2.after n

end Reader

end BlockCompiler
