import LayeredConf.Failure
import LayeredConf.Template.Token

/-!
# Template expressions

An expression is a literal, a dotted path, or a call of a function with expressions as arguments.

Tokens are read from left to right.  The first token decides: a quoted text or one of the words
`true`, `false` and `null` is a literal, and so is a number unless a dot follows; any other token is
the name of a call if a parenthesis follows and the start of a path if none does.  Arguments stand
between commas, and one more comma may follow the last.

    readExpr s        the expression of a text
-/

namespace LayeredConf.Template

inductive Literal where
  | text (s : String)
  | number (x : Number)
  | bool (b : Bool)
  | null
  deriving DecidableEq

inductive Expr where
  | literal (l : Literal)
  | path (segments : List String)
  | call (name : String) (args : List Expr)

instance : Inhabited Expr := ⟨.literal .null⟩

/-! ## Reading -/

def dot : Token := .plain ['.']
def comma : Token := .plain [',']
def openParen : Token := .plain ['(']
def closeParen : Token := .plain [')']

def Token.text : Token → String
  | .quoted s => String.ofList ('"' :: s)
  | .plain s => String.ofList s

def segments (s : List Char) : List String := (s.splitOn '.').map String.ofList

/-- A number token, read as a decimal. -/
def numberOf? (s : List Char) : Option Number :=
  let unsigned := match s with
    | '-' :: r => r
    | r => r
  if (unsigned.head?.map Char.isDigit).getD false then Decimal.read? s else none

/-- The word literals. -/
def word? (s : List Char) : Option Literal :=
  if s = "true".toList then some (.bool true)
  else if s = "false".toList then some (.bool false)
  else if s = "null".toList then some .null
  else none

/-- The dots and segments that continue a path; a token with dots inside holds several segments. -/
def readSegments (path : List String) : List Token → Except Failure (List String × List Token)
  | t :: ts =>
    if t = dot then
      match ts with
      | .plain s :: rest => readSegments (path ++ segments s) rest
      | _ => .error .missingSegment
    else .ok (path, t :: ts)
  | [] => .ok (path, [])

mutual

/-- An expression and the tokens behind it.  Each call for an argument takes a token first, so twice
the number of tokens is fuel enough. -/
def readFrom : Nat → List Token → Except Failure (Expr × List Token)
  | 0, _ => .error .emptyExpression
  | _, [] => .error .emptyExpression
  | _ + 1, .quoted s :: ts => .ok (.literal (.text (String.ofList s)), ts)
  | fuel + 1, .plain s :: ts =>
    match word? s with
    | some l => .ok (.literal l, ts)
    | none =>
      match numberOf? s, ts.head? == some dot with
      | some x, false => .ok (.literal (.number x), ts)
      | _, _ =>
        if ts.head? = some openParen then
          match readArgs fuel (ts.drop 1) with
          | .ok (args, rest) => .ok (.call (String.ofList s) args, rest)
          | .error e => .error e
        else
          match readSegments (segments s) ts with
          | .ok (path, rest) => .ok (.path path, rest)
          | .error e => .error e

/-- The arguments of a call up to its closing parenthesis. -/
def readArgs : Nat → List Token → Except Failure (List Expr × List Token)
  | 0, _ => .error .emptyExpression
  | fuel + 1, ts =>
    if ts.head? = some closeParen then .ok ([], ts.drop 1)
    else
      match readFrom fuel ts with
      | .error e => .error e
      | .ok (arg, rest) =>
        if rest.head? = some comma then
          match readArgs fuel (rest.drop 1) with
          | .ok (args, rest) => .ok (arg :: args, rest)
          | .error e => .error e
        else if rest.head? = some closeParen then .ok ([arg], rest.drop 1)
        else .error .unclosedArguments

end

def readTokens (ts : List Token) : Except Failure Expr :=
  match readFrom (2 * ts.length + 1) ts with
  | .error e => .error e
  | .ok (e, []) => .ok e
  | .ok (_, t :: _) => .error (.unexpectedToken t.text)

def readExpr (s : List Char) : Except Failure Expr := readTokens (tokens s)

end LayeredConf.Template
