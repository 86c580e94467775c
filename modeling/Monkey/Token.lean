/-!
# Tokens

A token is a kind and the text it was read from. The kinds fall into literals, operators,
delimiters and keywords; a keyword is a name that is reserved.
-/

namespace Monkey

/-- The kinds of token. -/
inductive TokenKind where
  | illegal | eof
  | ident | int | string
  | assign | plus | minus | bang | asterisk | slash | modulo
  | lt | gt | eq | notEq
  | comma | semicolon | colon | dot
  | lparen | rparen | lbrace | rbrace | lbracket | rbracket
  | function | letWord | trueWord | falseWord | ifWord | elseWord | returnWord | constWord
  | whileWord
  deriving DecidableEq, Repr, Inhabited

namespace TokenKind

/-- The name under which a kind is reported. -/
def name : TokenKind → String
  | illegal => "ILLEGAL"
  | eof => "EOF"
  | ident => "IDENT"
  | int => "INT"
  | string => "STRING"
  | assign => "ASSIGN"
  | plus => "PLUS"
  | minus => "MINUS"
  | bang => "BANG"
  | asterisk => "ASTERISK"
  | slash => "SLASH"
  | modulo => "MODULO"
  | lt => "LT"
  | gt => "GT"
  | eq => "EQ"
  | notEq => "NOT_EQ"
  | comma => "COMMA"
  | semicolon => "SEMICOLON"
  | colon => "COLON"
  | dot => "DOT"
  | lparen => "LPAREN"
  | rparen => "RPAREN"
  | lbrace => "LBRACE"
  | rbrace => "RBRACE"
  | lbracket => "LBRACKET"
  | rbracket => "RBRACKET"
  | function => "FUNCTION"
  | letWord => "LET"
  | trueWord => "TRUE"
  | falseWord => "FALSE"
  | ifWord => "IF"
  | elseWord => "ELSE"
  | returnWord => "RETURN"
  | constWord => "CONST"
  | whileWord => "WHILE"

/-- Every kind of token. -/
def all : List TokenKind :=
  [illegal, eof, ident, int, string, assign, plus, minus, bang, asterisk, slash, modulo, lt, gt,
   eq, notEq, comma, semicolon, colon, dot, lparen, rparen, lbrace, rbrace, lbracket, rbracket,
   function, letWord, trueWord, falseWord, ifWord, elseWord, returnWord, constWord, whileWord]

theorem mem_all (k : TokenKind) : k ∈ all := by
  cases k <;> decide

/-- The kind with the given name. -/
def ofName? (s : String) : Option TokenKind :=
  all.find? (·.name = s)

/-- The mark of an operator or delimiter; for the other kinds, the name. -/
def mark : TokenKind → String
  | assign => "="
  | plus => "+"
  | minus => "-"
  | bang => "!"
  | asterisk => "*"
  | slash => "/"
  | modulo => "%"
  | lt => "<"
  | gt => ">"
  | eq => "=="
  | notEq => "!="
  | comma => ","
  | semicolon => ";"
  | colon => ":"
  | dot => "."
  | lparen => "("
  | rparen => ")"
  | lbrace => "\x7b"
  | rbrace => "\x7d"
  | lbracket => "["
  | rbracket => "]"
  | k => k.name

/-- How a kind is written in a message. -/
def describe (k : TokenKind) : String :=
  "TokenType." ++ k.name

/-- The kinds written with a single character. -/
def ofSymbol? : Char → Option TokenKind
  | '=' => some assign
  | '+' => some plus
  | '-' => some minus
  | '!' => some bang
  | '/' => some slash
  | '*' => some asterisk
  | '%' => some modulo
  | '<' => some lt
  | '>' => some gt
  | ';' => some semicolon
  | ':' => some colon
  | ',' => some comma
  | '.' => some dot
  | '(' => some lparen
  | ')' => some rparen
  | '\x7b' => some lbrace
  | '\x7d' => some rbrace
  | '[' => some lbracket
  | ']' => some rbracket
  | _ => none

/-- The reserved words. -/
def keywords : List (String × TokenKind) :=
  [("fn", function), ("let", letWord), ("true", trueWord), ("false", falseWord), ("if", ifWord),
   ("else", elseWord), ("return", returnWord), ("const", constWord), ("while", whileWord)]

/-- The kind of a word: its keyword, or else an identifier. -/
def ofWord (word : String) : TokenKind :=
  (keywords.lookup word).getD ident

end TokenKind

/-- A token: its kind and the text it was read from. -/
structure Token where
  kind : TokenKind
  literal : String
  deriving DecidableEq, Repr, Inhabited

namespace Token

/-- The token that marks the end of the input. -/
def eof : Token := ⟨.eof, ""⟩

/-- How a token is written in a listing. -/
def describe (t : Token) : String :=
  "<Token type: " ++ t.kind.describe ++ " literal: " ++ t.literal ++ ">"

end Token

end Monkey
