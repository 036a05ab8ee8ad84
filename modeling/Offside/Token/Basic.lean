/-!
# Tokens

A token is a piece of text with its class and the place where it begins. Four classes are
synthetic: they stand for white space that carries structure (the line breaks and the changes of
indentation) and for the end of the text, and no text is matched for them.
-/

namespace Offside

/-- The class of a token. -/
inductive Token.Kind where
  | float
  | integer
  | string
  | leftParen
  | rightParen
  /-- Punctuation: `::`, `:`, `->`, `,`, `[`, `]`, `{`, `}`, `=` and `|`. -/
  | special
  | operator
  /-- A word that begins with a capital letter. -/
  | constant
  | identifier
  | keyword
  /-- The first line of a deeper block begins. -/
  | indent
  /-- A block has ended. -/
  | outdent
  | newline
  | endOfText
deriving DecidableEq, Repr

namespace Token.Kind

/-- Whether tokens of the class stand for white space or the end of the text. -/
def isSynthetic : Kind → Bool
  | indent | outdent | newline | endOfText => true
  | _ => false

/-- The name of the class in messages. -/
def name : Kind → String
  | float => "FLOAT"
  | integer => "INTEGER"
  | string => "STRING"
  | leftParen => "LPAREN"
  | rightParen => "RPAREN"
  | special => "SPECIAL"
  | operator => "OPERATOR"
  | constant => "CONSTANT"
  | identifier => "IDENTIFIER"
  | keyword => "KEYWORD"
  | indent => "INDENT"
  | outdent => "OUTDENT"
  | newline => "NEWLINE"
  | endOfText => "EOF"

instance : ToString Kind where
  toString := name

end Token.Kind

/-- A token: its class, its text, and where the text begins. Lines count from 1 and columns, in
characters, from 0. -/
structure Token where
  kind : Token.Kind
  value : String
  line : Nat
  column : Nat
deriving DecidableEq, Repr

namespace Token

/-- The words that are keywords and never identifiers. -/
def reserved : List String :=
  ["fn", "match", "if", "else", "true", "false", "null", "use", "module", "type", "as", "new",
    "extern", "let"]

def isOperator (token : Token) (text : String) : Bool :=
  token.kind == .operator && token.value == text

def isKeyword (token : Token) (text : String) : Bool :=
  token.kind == .keyword && token.value == text

theorem isKeyword_iff {token : Token} {text : String} :
    token.isKeyword text = true ↔ token.kind = .keyword ∧ token.value = text := by
  simp [isKeyword]

def isConstant (token : Token) : Bool :=
  token.kind == .constant

def isIdentifier (token : Token) : Bool :=
  token.kind == .identifier

def isNewline (token : Token) : Bool :=
  token.kind == .newline

def isEnd (token : Token) : Bool :=
  token.kind == .endOfText

/-- The number of characters that a message about the token underlines. -/
def width (token : Token) : Nat :=
  max 1 token.value.length

instance : ToString Token where
  toString token :=
    if token.kind.isSynthetic then token.kind.name
    else token.kind.name ++ " (" ++ token.value ++ ")"

end Token

end Offside
