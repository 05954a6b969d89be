/-!
# File paths

Paths have their parts between slashes.  Empty parts and `.` count for nothing, and `..` takes back
the part before it.

    normalize p      the shortest path to the same file; a slash at the end stays
    fromRoot p       the path from the root, without a slash at the end
-/

namespace LayeredConf.Load.Path

def isAbsolute (p : List Char) : Bool := p.head? = some '/'

/-- The parts so far, last one first, and the next part.  Above the root there is nothing; above the
start of a relative path `..` stays. -/
def addPart (rooted : Bool) (parts : List (List Char)) (part : List Char) : List (List Char) :=
  if part = [] ∨ part = ['.'] then parts
  else if part = ['.', '.'] then
    match parts with
    | [] => if rooted then [] else [part]
    | last :: rest => if last = ['.', '.'] then part :: parts else rest
  else part :: parts

/-- The parts that count, joined. -/
def reduce (rooted : Bool) (p : List Char) : List Char :=
  ['/'].intercalate ((p.splitOn '/').foldl (addPart rooted) []).reverse

def normalize (p : List Char) : List Char :=
  if p = [] then ['.']
  else
    let rooted := isAbsolute p
    let slash := if p.getLast? = some '/' then ['/'] else []
    match rooted, reduce rooted p with
    | true, [] => ['/']
    | false, [] => '.' :: slash
    | true, r => '/' :: r ++ slash
    | false, r => r ++ slash

def fromRoot (p : List Char) : List Char := '/' :: reduce true p

/-- The path of the directory: the text before the last slash that is not at the end.  A slash or
two at the start stay. -/
def directory (p : List Char) : List Char :=
  let upToSlash := ((p.reverse.dropWhile (· = '/')).dropWhile (· ≠ '/')).reverse
  match upToSlash with
  | [] => if isAbsolute p then ['/'] else ['.']
  | ['/'] => ['/']
  | ['/', '/'] => ['/', '/']
  | d => d.dropLast

def join (a b : List Char) : List Char :=
  normalize (if a = [] then b else if b = [] then a else a ++ '/' :: b)

/-- The path of a file named in another file. -/
def relativeTo (file target : List Char) : List Char :=
  if isAbsolute target then target else join (directory file) target

end LayeredConf.Load.Path
