import StackScript.Position

/-!
# Tokens

The words of the language. A token keeps the text it was written with, string
literals excepted, whose text is the string they denote.
-/

namespace StackScript

namespace Token

/-- What a token is. -/
inductive Kind
  | illegal | eof | ident | int | string
  | letKw | function | ifKw | elseKw | returnKw | trueKw | falseKw
  | assign | plus | minus | star | slash | bang | equal | notEqual | less | greater
  | comma | semicolon | colon | lparen | rparen | lbrace | rbrace | lbracket | rbracket
  deriving DecidableEq, Repr, Inhabited

/-- The name of a kind in messages. -/
def Kind.name : Kind → String
  | .illegal => "ILLEGAL"
  | .eof => "EOF"
  | .ident => "IDENT"
  | .int => "INT"
  | .string => "STRING"
  | .letKw => "LET"
  | .function => "FUNCTION"
  | .ifKw => "IF"
  | .elseKw => "ELSE"
  | .returnKw => "RETURN"
  | .trueKw => "TRUE"
  | .falseKw => "FALSE"
  | .assign => "ASSIGN"
  | .plus => "PLUS"
  | .minus => "MINUS"
  | .star => "STAR"
  | .slash => "SLASH"
  | .bang => "BANG"
  | .equal => "EQUAL"
  | .notEqual => "NOTEQUAL"
  | .less => "LESS"
  | .greater => "GREATER"
  | .comma => "COMMA"
  | .semicolon => "SEMICOLON"
  | .colon => "COLON"
  | .lparen => "LPAREN"
  | .rparen => "RPAREN"
  | .lbrace => "LBRACE"
  | .rbrace => "RBRACE"
  | .lbracket => "LBRACKET"
  | .rbracket => "RBRACKET"

/-- The reserved words. -/
def keywords : List (String × Kind) :=
  [("let", .letKw), ("fn", .function), ("if", .ifKw), ("else", .elseKw), ("return", .returnKw),
    ("true", .trueKw), ("false", .falseKw)]

/-- A word is a keyword if it is reserved, and otherwise a name. -/
def Kind.ofWord (word : Bytes) : Kind :=
  match keywords.find? fun k => Bytes.ofString k.1 == word with
  | some k => k.2
  | none => .ident

/-- The kinds that are written with one byte, whatever follows it. -/
def Kind.ofByte? (b : UInt8) : Option Kind :=
  match Char.ofNat b.toNat with
  | '+' => some .plus
  | '-' => some .minus
  | '*' => some .star
  | '/' => some .slash
  | '<' => some .less
  | '>' => some .greater
  | ',' => some .comma
  | ';' => some .semicolon
  | ':' => some .colon
  | '(' => some .lparen
  | ')' => some .rparen
  | '\x7b' => some .lbrace
  | '\x7d' => some .rbrace
  | '[' => some .lbracket
  | ']' => some .rbracket
  | _ => none

end Token

/-- A token with its text and the position of its first byte. -/
structure Token where
  kind : Token.Kind
  literal : Bytes
  pos : Pos
  deriving DecidableEq, Repr, Inhabited

end StackScript
