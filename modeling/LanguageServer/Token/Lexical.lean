import LanguageServer.Document.Store
import LanguageServer.Token.Data
import LanguageServer.Token.Legend

set_option autoImplicit false

/-! # Tokens of plain text

A classifier that works for any text: it finds comments to the end of a line, strings in double
quotes, numbers, a few keywords, and names. A line is cut into pieces whose characters, one piece
after another, are those of the line; positions are counted only afterwards, so the pieces are the
same in every encoding. -/

namespace LanguageServer.Lexical

inductive Kind where
  | comment
  | string
  | number
  | keyword
  | variable
deriving DecidableEq, Repr, Inhabited

def Kind.code : Kind → UInt32
  | .comment => 0
  | .string => 1
  | .number => 2
  | .keyword => 3
  | .variable => 4

def legend : Legend := ⟨["comment", "string", "number", "keyword", "variable"], []⟩

def keywords : List String :=
  ["as", "break", "const", "continue", "else", "false", "fn", "for", "if", "import", "in",
   "let", "loop", "match", "return", "true", "type", "while"]

/-- A piece of a line: something recognised, or a character that belongs to nothing. -/
inductive Piece where
  | gap (c : Char)
  | lexeme (kind : Kind) (chars : List Char)
deriving DecidableEq, Repr

def Piece.chars : Piece → List Char
  | .gap c => [c]
  | .lexeme _ cs => cs

/-- Characters that can follow in a number. -/
def isNumberChar (c : Char) : Bool := c.isAlphanum || c == '.' || c == '_'

/-- Characters that can start a name. -/
def isNameStart (c : Char) : Bool := c.isAlpha || c == '_'

/-- Characters that can follow in a name. -/
def isNameChar (c : Char) : Bool := c.isAlphanum || c == '_'

/-- The rest of a string up to the quote that ends it, and what follows; a character after a
backslash ends nothing. -/
def stringRest : (escaped : Bool) → List Char → List Char × List Char
  | _, [] => ([], [])
  | escaped, c :: rest =>
    if c = '\\' ∧ escaped = false then
      let (inside, after) := stringRest true rest
      (c :: inside, after)
    else if c = '"' ∧ escaped = false then ([c], rest)
    else
      let (inside, after) := stringRest false rest
      (c :: inside, after)

theorem length_stringRest (escaped : Bool) (cs : List Char) :
    (stringRest escaped cs).2.length ≤ cs.length := by
  induction cs generalizing escaped with
  | nil => simp [stringRest]
  | cons c rest ih =>
    rw [stringRest]
    split
    · exact Nat.le_succ_of_le (ih true)
    · split
      · simp
      · exact Nat.le_succ_of_le (ih false)

/-- Whether a comment starts here. -/
def startsComment : List Char → Bool
  | '#' :: _ => true
  | '/' :: '/' :: _ => true
  | _ => false

/-- The kind of a name. -/
def nameKind (cs : List Char) : Kind :=
  if keywords.contains (String.ofList cs) then .keyword else .variable

/-- The pieces of a line. -/
def pieces : List Char → List Piece
  | [] => []
  | c :: rest =>
    if startsComment (c :: rest) then [.lexeme .comment (c :: rest)]
    else if c = '"' then
      .lexeme .string (c :: (stringRest false rest).1) :: pieces (stringRest false rest).2
    else if c.isDigit then
      .lexeme .number (c :: rest.takeWhile isNumberChar) :: pieces (rest.dropWhile isNumberChar)
    else if isNameStart c then
      let name := c :: rest.takeWhile isNameChar
      .lexeme (nameKind name) name :: pieces (rest.dropWhile isNameChar)
    else .gap c :: pieces rest
termination_by cs => cs.length
decreasing_by
  · have := length_stringRest false rest
    simp only [List.length_cons]
    omega
  · have := (List.dropWhile_sublist isNumberChar (l := rest)).length_le
    simp only [List.length_cons]
    omega
  · have := (List.dropWhile_sublist isNameChar (l := rest)).length_le
    simp only [List.length_cons]
    omega
  · simp

/-- How many units characters take. -/
def width (e : PositionEncoding) : List Char → Nat
  | [] => 0
  | c :: cs => e.units c + width e cs

/-- The tokens of the pieces of a line from a column on. -/
def pieceTokens (e : PositionEncoding) (line : Nat) :
    (column : Nat) → List Piece → List SemanticToken
  | _, [] => []
  | column, .gap c :: rest => pieceTokens e line (column + e.units c) rest
  | column, .lexeme kind cs :: rest =>
    ⟨line.toUInt32, column.toUInt32, (width e cs).toUInt32, kind.code, 0⟩ ::
      pieceTokens e line (column + width e cs) rest

/-- The tokens of lines, the first of which has this number. -/
def lineTokens (e : PositionEncoding) : (line : Nat) → List (List Char) → List SemanticToken
  | _, [] => []
  | line, cs :: rest => pieceTokens e line 0 (pieces cs) ++ lineTokens e (line + 1) rest

/-- The tokens of a text. -/
def tokens (text : String) (e : PositionEncoding) : List SemanticToken :=
  lineTokens e 0 (Document.splitLines text.toList)

end LanguageServer.Lexical
