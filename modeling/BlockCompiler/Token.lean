import BlockCompiler.Vocabulary
import BlockCompiler.Decimal.Text

/-!
# Tokens

A token either has a single spelling (`Fixed`) or carries a payload. The end of the source is not a
token: a lookahead is an `Option Token`.
-/

namespace BlockCompiler

/-- The reserved words that are not types. -/
inductive Keyword where
  | defKw
  | externKw
  | setKw
  | constKw
  | returnKw
  | ifKw
  | elseKw
  | whileKw
deriving DecidableEq, Repr

def Keyword.text : Keyword → String
  | defKw => "def"
  | externKw => "extern"
  | setKw => "set"
  | constKw => "const"
  | returnKw => "return"
  | ifKw => "if"
  | elseKw => "else"
  | whileKw => "while"

/-- The reserved words that are types. -/
inductive TypeWord where
  | double
  | string
  | void
deriving DecidableEq, Repr

def TypeWord.toTy : TypeWord → Ty
  | double => .double
  | string => .string
  | void => .void

inductive Mark where
  | openParen
  | closeParen
  | openBrace
  | closeBrace
  | comma
  | semi
deriving DecidableEq, Repr

def Mark.text : Mark → String
  | openParen => "("
  | closeParen => ")"
  | openBrace => "\x7b"
  | closeBrace => "\x7d"
  | comma => ","
  | semi => ";"

/-- The tokens with a single spelling. -/
inductive Fixed where
  | keyword (k : Keyword)
  | ty (t : TypeWord)
  | operator (o : Operator)
  | mark (m : Mark)
deriving DecidableEq, Repr

namespace Fixed

def text : Fixed → String
  | keyword k => k.text
  | ty t => t.toTy.text
  | operator o => o.text
  | mark m => m.text

def all : List Fixed :=
  [.keyword .defKw, .keyword .externKw, .keyword .setKw, .keyword .constKw, .keyword .returnKw,
    .keyword .ifKw, .keyword .elseKw, .keyword .whileKw, .ty .double, .ty .string, .ty .void,
    .operator .equal, .operator .notEqual, .operator .less, .operator .greater, .operator .add,
    .operator .sub, .operator .mul, .mark .openParen, .mark .closeParen, .mark .openBrace,
    .mark .closeBrace, .mark .comma, .mark .semi]

theorem mem_all (f : Fixed) : f ∈ all := by
  rcases f with (_ | _ | _ | _ | _ | _ | _ | _) | (_ | _ | _) | (_ | _ | _ | _ | _ | _ | _) |
    (_ | _ | _ | _ | _ | _) <;> decide

def ofText? (s : String) : Option Fixed := all.find? (·.text = s)

theorem ofText?_text (f : Fixed) : ofText? f.text = some f := by
  have h : ∀ f ∈ all, ofText? f.text = some f := by decide
  exact h f (mem_all f)

theorem text_of_ofText? {s : String} {f : Fixed} (h : ofText? s = some f) : f.text = s := by
  simpa using List.find?_some h

end Fixed

inductive Token where
  | number (value : Float)
  /-- A string literal, without its quotes. -/
  | text (contents : String)
  | name (ident : String)
  /-- A character that starts no other token. -/
  | char (c : Char)
  | fixed (token : Fixed)
deriving DecidableEq

namespace Token

@[match_pattern] abbrev keyword (k : Keyword) : Token := fixed (.keyword k)

@[match_pattern] abbrev ty (t : TypeWord) : Token := fixed (.ty t)

@[match_pattern] abbrev operator (o : Operator) : Token := fixed (.operator o)

@[match_pattern] abbrev mark (m : Mark) : Token := fixed (.mark m)

def spelling : Token → String
  | number value => Decimal.positionalLayout.write value
  | text contents => "\"" ++ contents ++ "\""
  | name ident => ident
  | char c => String.singleton c
  | fixed token => token.text

/-- What stands at a place of the source, as messages show it. -/
def describe : Option Token → String
  | some token => token.spelling
  | none => "end of input"

end Token

end BlockCompiler
