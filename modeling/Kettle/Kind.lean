/-
The kinds of tokens and of tree nodes. A token's kind is also the kind of the node it becomes, apart
from the four keywords; the last kinds belong to nodes only.
-/
import Kettle.Text.Rune

namespace Kettle

/-- What a token or a node is. -/
inductive Kind where
  | eof | error | separator
  | ident | number | doubleQuoted | singleQuoted | backquoted
  | hashComment | slashComment
  | lbrace | rbrace | lpar | rpar
  | not
  | comma | plus | minus | star | slash | mod | lt | gt | dot | pipe | gte | neq | eq | lte | or | and
  | assign | plusEq | minusEq | starEq | slashEq | modEq
  | function | apply | ret | brk | cont | neg
  deriving DecidableEq, Repr

namespace Kind

/-- Every kind, in order. -/
def all : List Kind :=
  [eof, error, separator, ident, number, doubleQuoted, singleQuoted, backquoted, hashComment,
   slashComment, lbrace, rbrace, lpar, rpar, not, comma, plus, minus, star, slash, mod, lt, gt, dot,
   pipe, gte, neq, eq, lte, or, and, assign, plusEq, minusEq, starEq, slashEq, modEq, function, apply,
   ret, brk, cont, neg]

/-- The name of a kind in listings and messages. -/
def name : Kind → Text
  | eof => "EOF" | error => "ERROR" | separator => "SEPARATOR"
  | ident => "IDENT" | number => "NUMBER"
  | doubleQuoted => "DQ_STRING" | singleQuoted => "SQ_STRING" | backquoted => "BT_STRING"
  | hashComment => "HASH_COMMENT" | slashComment => "SLASH_COMMENT"
  | lbrace => "LBRACE" | rbrace => "RBRACE" | lpar => "LPAR" | rpar => "RPAR"
  | not => "NOT"
  | comma => "COMMA" | plus => "PLUS" | minus => "MINUS" | star => "STAR" | slash => "SLASH"
  | mod => "MOD" | lt => "LT" | gt => "GT" | dot => "DOT" | pipe => "PIPE" | gte => "GTE"
  | neq => "NEQ" | eq => "EQ" | lte => "LTE" | or => "OR" | and => "AND"
  | assign => "ASSIGN" | plusEq => "PLUSEQ" | minusEq => "MINUSEQ" | starEq => "STAREQ"
  | slashEq => "SLASHEQ" | modEq => "MODEQ"
  | function => "FUNCTION" | apply => "APPLY" | ret => "RETURN" | brk => "BREAK"
  | cont => "CONTINUE" | neg => "NEG"

/-- The kind of a name. -/
def ofName? (t : Text) : Option Kind := all.find? fun k => k.name = t

/-- Whether a kind is one of the three kinds of string literals. -/
def isString : Kind → Bool
  | doubleQuoted | singleQuoted | backquoted => true
  | _ => false

/-- Whether a kind is one of the two kinds of comments. -/
def isComment : Kind → Bool
  | hashComment | slashComment => true
  | _ => false

/-- Whether a line break after a token of this kind ends the statement. -/
def endsStatement : Kind → Bool
  | ident | number | rpar | rbrace => true
  | k => k.isString

/-- The operator that a compound assignment applies. -/
def compound? : Kind → Option Kind
  | plusEq => some plus
  | minusEq => some minus
  | starEq => some star
  | slashEq => some slash
  | modEq => some mod
  | _ => none

/-- The bracket that closes an opening one. -/
def closer? : Kind → Option Kind
  | lpar => some rpar
  | lbrace => some rbrace
  | _ => none

end Kind

end Kettle
