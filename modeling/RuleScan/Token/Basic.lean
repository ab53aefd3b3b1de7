import RuleScan.Text.Utf8

/-!
# Tokens

The words of a rule source. Names, numbers and literals carry what they stand for;
keywords and symbols are known by their spelling. Every token remembers the line
and column of its first byte, both counted from one, and its text.
-/

namespace RuleScan

/-- The reserved words. -/
inductive Keyword where
  | ruleWord
  | varWord
  | ifWord
  | trueWord
  | falseWord
  | ignoreWord
  | stopWord
  deriving DecidableEq, Repr

/-- The punctuation marks and operator signs. -/
inductive Symbol where
  | parenOpen
  | parenClose
  | braceOpen
  | braceClose
  | bracketOpen
  | bracketClose
  | comma
  | semicolon
  | colon
  | assign
  | plus
  | minus
  | star
  | slash
  | percent
  | amp
  | ampAmp
  | pipe
  | pipePipe
  | caret
  | tilde
  | bang
  | shiftLeft
  | shiftRight
  | less
  | greater
  | lessEq
  | greaterEq
  | eqEq
  | bangEq
  deriving DecidableEq, Repr

/-- All keywords. -/
def Keyword.all : List Keyword :=
  [.ruleWord, .varWord, .ifWord, .trueWord, .falseWord, .ignoreWord, .stopWord]

/-- The spelling of a keyword. -/
def Keyword.spelling : Keyword → String
  | .ruleWord => "rule"
  | .varWord => "var"
  | .ifWord => "if"
  | .trueWord => "true"
  | .falseWord => "false"
  | .ignoreWord => "ignore"
  | .stopWord => "stop"

/-- The spelling of a symbol. -/
def Symbol.spelling : Symbol → String
  | .parenOpen => "("
  | .parenClose => ")"
  | .braceOpen => "\x7b"
  | .braceClose => "\x7d"
  | .bracketOpen => "["
  | .bracketClose => "]"
  | .comma => ","
  | .semicolon => ";"
  | .colon => ":"
  | .assign => "="
  | .plus => "+"
  | .minus => "-"
  | .star => "*"
  | .slash => "/"
  | .percent => "%"
  | .amp => "&"
  | .ampAmp => "&&"
  | .pipe => "|"
  | .pipePipe => "||"
  | .caret => "^"
  | .tilde => "~"
  | .bang => "!"
  | .shiftLeft => "<<"
  | .shiftRight => ">>"
  | .less => "<"
  | .greater => ">"
  | .lessEq => "<="
  | .greaterEq => ">="
  | .eqEq => "=="
  | .bangEq => "!="

/-- The keyword with a spelling. -/
def Keyword.ofSpelling? (word : List Char) : Option Keyword :=
  Keyword.all.find? fun k => k.spelling.toList == word

theorem Keyword.ofSpelling?_spelling (k : Keyword) :
    Keyword.ofSpelling? k.spelling.toList = some k := by
  cases k <;> decide

/-- What a token is. -/
inductive TokenKind where
  | ident (name : String)
  | special (name : String)
  | number (value : Nat)
  | string (bytes : Bytes)
  | char (byte : UInt8)
  | keyword (k : Keyword)
  | symbol (s : Symbol)
  | eof
  deriving DecidableEq, Repr

/-- How a message names a token. -/
def TokenKind.describe : TokenKind → String
  | .ident name => name
  | .special name => name
  | .number value => toString value
  | .string _ => "string literal"
  | .char _ => "character literal"
  | .keyword k => k.spelling
  | .symbol s => s.spelling
  | .eof => "end of input"

/-- A word stands for the number it holds. -/
instance Position.coeNat : Coe UInt32 Nat := ⟨UInt32.toNat⟩

/-- A line and a column, both counted from one, the column in bytes. Both are kept in words of
32 bits, which wrap around in very long texts. -/
structure Position where
  line : UInt32
  column : UInt32
  deriving DecidableEq, Repr, Inhabited

/-- A token with its place and its text. -/
structure Token where
  kind : TokenKind
  position : Position
  text : List Char
  deriving DecidableEq, Repr

/-- The end of an empty source. -/
instance : Inhabited Token := ⟨⟨.eof, ⟨1, 1⟩, []⟩⟩

end RuleScan
