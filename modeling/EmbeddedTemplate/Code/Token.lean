
namespace EmbeddedTemplate.Code

inductive Word
  | doWord
  | endWord
  | elseWord
  | catchWord
  | rescueWord
  | afterWord
  | trueWord
  | falseWord
  | nilWord
  | notWord
  | andWord
  | orWord
  | inWord
deriving DecidableEq, Repr

namespace Word

def all : List Word :=
  [.doWord, .endWord, .elseWord, .catchWord, .rescueWord, .afterWord, .trueWord, .falseWord,
    .nilWord, .notWord, .andWord, .orWord, .inWord]

def text : Word → String
  | .doWord => "do"
  | .endWord => "end"
  | .elseWord => "else"
  | .catchWord => "catch"
  | .rescueWord => "rescue"
  | .afterWord => "after"
  | .trueWord => "true"
  | .falseWord => "false"
  | .nilWord => "nil"
  | .notWord => "not"
  | .andWord => "and"
  | .orWord => "or"
  | .inWord => "in"

def ofText? (s : String) : Option Word := all.find? fun w => w.text = s

theorem mem_all (w : Word) : w ∈ all := by cases w <;> decide

def opensSection : Word → Bool
  | .elseWord | .catchWord | .rescueWord | .afterWord => true
  | _ => false

end Word

inductive Sign
  | strictEqual
  | strictUnequal
  | arrow
  | leftArrow
  | pipe
  | orOr
  | andAnd
  | equal
  | unequal
  | lessEqual
  | greaterEqual
  | concat
  | plusPlus
  | minusMinus
  | less
  | greater
  | binds
  | plus
  | minus
  | star
  | slash
  | bang
  | atSign
  | semicolon
  | dot
  | comma
  | leftParen
  | rightParen
  | leftBracket
  | rightBracket
  | leftBrace
  | rightBrace
deriving DecidableEq, Repr

namespace Sign

/-- All signs, longer ones first. -/
def all : List Sign :=
  [.strictEqual, .strictUnequal, .arrow, .leftArrow, .pipe, .orOr, .andAnd, .equal, .unequal,
    .lessEqual, .greaterEqual, .concat, .plusPlus, .minusMinus, .less, .greater, .binds, .plus,
    .minus, .star, .slash, .bang, .atSign, .semicolon, .dot, .comma, .leftParen, .rightParen,
    .leftBracket, .rightBracket, .leftBrace, .rightBrace]

def chars : Sign → List Char
  | .strictEqual => ['=', '=', '=']
  | .strictUnequal => ['!', '=', '=']
  | .arrow => ['-', '>']
  | .leftArrow => ['<', '-']
  | .pipe => ['|', '>']
  | .orOr => ['|', '|']
  | .andAnd => ['&', '&']
  | .equal => ['=', '=']
  | .unequal => ['!', '=']
  | .lessEqual => ['<', '=']
  | .greaterEqual => ['>', '=']
  | .concat => ['<', '>']
  | .plusPlus => ['+', '+']
  | .minusMinus => ['-', '-']
  | .less => ['<']
  | .greater => ['>']
  | .binds => ['=']
  | .plus => ['+']
  | .minus => ['-']
  | .star => ['*']
  | .slash => ['/']
  | .bang => ['!']
  | .atSign => ['@']
  | .semicolon => [';']
  | .dot => ['.']
  | .comma => [',']
  | .leftParen => ['(']
  | .rightParen => [')']
  | .leftBracket => ['[']
  | .rightBracket => [']']
  | .leftBrace => ['\x7b']
  | .rightBrace => ['\x7d']

def text (s : Sign) : String := String.ofList s.chars

def ofChars? (cs : List Char) : Option Sign := all.find? fun s => s.chars.isPrefixOf cs

theorem mem_all (s : Sign) : s ∈ all := by cases s <;> decide

end Sign

inductive Terminal
  | float
  | key
  | modulePath
  | name
  | atom
  | string
  | int
  | word (w : Word)
  | sign (s : Sign)
deriving DecidableEq, Repr

namespace Terminal

def text? : Terminal → Option String
  | .word w => some w.text
  | .sign s => some s.text
  | _ => none

def isLiteral : Terminal → Bool
  | .int | .float | .string | .atom => true
  | .word .trueWord | .word .falseWord | .word .nilWord => true
  | _ => false

end Terminal

structure Token where
  terminal : Terminal
  text : String
  line : Int
deriving DecidableEq, Repr

end EmbeddedTemplate.Code
