/-!
# Tokens

The words of source text: reserved words, identifiers, numbers and symbols. A token says where it
begins and on which counted line. Blanks and comments are no tokens.
-/

namespace JamCompiler

inductive Keyword
  | classWord
  | voidWord
  | publicWord
  | privateWord
  | staticWord
  | intWord
  | booleanWord
  | thisWord
  | returnWord
  | ifWord
  | elseWord
  | whileWord
  | trueWord
  | falseWord
  | newWord
  | nullWord
  deriving DecidableEq

namespace Keyword

def spelling : Keyword → String
  | classWord => "class"
  | voidWord => "void"
  | publicWord => "public"
  | privateWord => "private"
  | staticWord => "static"
  | intWord => "int"
  | booleanWord => "boolean"
  | thisWord => "this"
  | returnWord => "return"
  | ifWord => "if"
  | elseWord => "else"
  | whileWord => "while"
  | trueWord => "true"
  | falseWord => "false"
  | newWord => "new"
  | nullWord => "null"

def all : List Keyword :=
  [classWord, voidWord, publicWord, privateWord, staticWord, intWord, booleanWord, thisWord,
   returnWord, ifWord, elseWord, whileWord, trueWord, falseWord, newWord, nullWord]

def ofSpelling? (word : String) : Option Keyword := all.find? (·.spelling == word)

theorem ofSpelling?_spelling (word : Keyword) : ofSpelling? word.spelling = some word := by
  cases word <;> rfl

theorem spelling_of_ofSpelling? {text : String} {word : Keyword}
    (h : ofSpelling? text = some word) : word.spelling = text := by
  simpa using List.find?_some h

end Keyword

inductive Symbol
  | lparen
  | rparen
  | lbrace
  | rbrace
  | lbracket
  | rbracket
  | comma
  | semicolon
  | dot
  | assign
  | plus
  | minus
  | times
  | divide
  | and
  | or
  | not
  | eq
  | ne
  | lt
  | le
  | gt
  | ge
  deriving DecidableEq

namespace Symbol

def spelling : Symbol → String
  | lparen => "("
  | rparen => ")"
  | lbrace => "\x7b"
  | rbrace => "\x7d"
  | lbracket => "["
  | rbracket => "]"
  | comma => ","
  | semicolon => ";"
  | dot => "."
  | assign => "="
  | plus => "+"
  | minus => "-"
  | times => "*"
  | divide => "/"
  | and => "&&"
  | or => "||"
  | not => "!"
  | eq => "=="
  | ne => "!="
  | lt => "<"
  | le => "<="
  | gt => ">"
  | ge => ">="

def label : Symbol → String
  | lparen => "LPAREN"
  | rparen => "RPAREN"
  | lbrace => "LBRACE"
  | rbrace => "RBRACE"
  | lbracket => "LBRACKET"
  | rbracket => "RBRACKET"
  | comma => "COMMA"
  | semicolon => "SEMICOLON"
  | dot => "DOT"
  | assign => "ASSIGN"
  | plus => "PLUS"
  | minus => "MINUS"
  | times => "TIMES"
  | divide => "DIVIDE"
  | and => "ANDAND"
  | or => "OROR"
  | not => "NOT"
  | eq => "EQ"
  | ne => "NE"
  | lt => "LT"
  | le => "LE"
  | gt => "GT"
  | ge => "GE"

end Symbol

inductive TokenKind
  | number (value : Nat)
  | ident (name : String)
  | keyword (word : Keyword)
  | symbol (symbol : Symbol)
  deriving DecidableEq

namespace TokenKind

/-- How a token is shown. A number is shown by its value, however it was written. -/
def text : TokenKind → String
  | number value => toString value
  | ident name => name
  | keyword word => word.spelling
  | symbol s => s.spelling

/-- The name of a token's class. -/
def label : TokenKind → String
  | number _ => "NUM"
  | ident _ => "ID"
  | keyword word => word.spelling.toUpper
  | symbol s => s.label

end TokenKind

structure Token where
  kind : TokenKind
  pos : Nat
  line : Nat
  deriving DecidableEq

end JamCompiler
