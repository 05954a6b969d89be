import LayeredConf.Template.Datum
import LayeredConf.Template.Grammar
import LayeredConf.Template.Piece

/-!
# Expanding templates

Each expression of a template is evaluated and its text put in its place.  A path is read, a call
evaluates its arguments and applies the function; the first failure ends the whole.  A result that
is absent or null is missing, and what becomes of it is chosen by the caller.

    expand env s      the template `s` with its expressions evaluated
-/

namespace LayeredConf.Template

/-- What to do with a missing result: leave the expression as it stands, put nothing, or fail. -/
inductive Missing where
  | leave
  | empty
  | fail
  deriving DecidableEq, Repr

abbrev Function := List Datum → Except Failure Datum

structure Environment where
  functions : List (String × Function)
  readPath : List String → Except Failure Datum
  render : Datum → String
  missing : Missing

mutual

def eval (env : Environment) : Expr → Except Failure Datum
  | .literal (.text s) => .ok (.text s)
  | .literal (.number x) => .ok (.number x)
  | .literal (.bool b) => .ok (.bool b)
  | .literal .null => .ok .null
  | .path segments => env.readPath segments
  | .call name args =>
    match env.functions.lookup name with
    | none => .error (.unknownFunction name)
    | some fn =>
      match evalAll env args with
      | .ok ds => fn ds
      | .error e => .error e

def evalAll (env : Environment) : List Expr → Except Failure (List Datum)
  | [] => .ok []
  | e :: es =>
    match eval env e with
    | .error e => .error e
    | .ok d =>
      match evalAll env es with
      | .ok ds => .ok (d :: ds)
      | .error e => .error e

end

def expandPiece (env : Environment) : Piece → Except Failure String
  | .text s => .ok (String.ofList s)
  | .expr body => do
    let text := Text.trim body
    let d ← eval env (← readExpr text)
    if d.isMissing then
      match env.missing with
      | .leave => .ok (String.ofList (Piece.expr body).source)
      | .empty => .ok ""
      | .fail => .error (.missingResult (String.ofList text))
    else .ok (env.render d)

def expandPieces (env : Environment) : List Piece → Except Failure (List String)
  | [] => .ok []
  | p :: ps => do
    let s ← expandPiece env p
    let rest ← expandPieces env ps
    pure (s :: rest)

def expand (env : Environment) (template : String) : Except Failure String :=
  (expandPieces env (pieces template.toList)).map String.join

/-- Reads a path by the function `get`, applied to the path with dots; without that function
nothing is found. -/
def pathByGet (functions : List (String × Function)) (segments : List String) :
    Except Failure Datum :=
  match functions.lookup "get" with
  | some fn => fn [.text (dotted segments)]
  | none => .ok .absent

end LayeredConf.Template
