import LayeredConf.Load.Path
import LayeredConf.Load.Text

/-!
# Loading files

A file is loaded line by line, and an include loads the file it names, which is looked for beside
the including one.  Each file is read at most once: what was begun already is skipped, so files that
include each other end.  A failure carries the includes that led to it.

    loadInto f n files file      the load of a file into the node `n`
    loadNew files file           the load of a file into a new scope
-/

namespace LayeredConf.Load

/-- Files by their normal paths. -/
abbrev Files := Record String

def Files.read? (files : Files) (file : String) : Option String :=
  files.lookup (String.ofList (Path.normalize file.toList))

/-- What tells files apart. -/
def identity (file : String) : String := String.ofList (Path.fromRoot file.toList)

/-- The lines of a file from a number on; `visit` loads an included file. -/
def loadFileLines (visit : Progress → String → Progress × Except Failure Unit) (n : NodeId)
    (file : String) : Progress → Nat → List (List Char) → Progress × Except Failure Unit
  | p, _, [] => (p, .ok ())
  | p, number, s :: rest =>
    let place : Place := ⟨some file, number⟩
    let (p, outcome) : Progress × Except Failure Unit := match Line.read s with
      | .ignored => (p, .ok ())
      | .including name =>
        let target := String.ofList (Path.relativeTo file.toList name.toList)
        let (p, outcome) := visit (p.tell (.inclusion ⟨some file, some number⟩ target)) target
        (p, outcome.mapError (.inclusion place target))
      | .entry e => p.write n place e
      | .unknown => (p, .error (.badLine place (String.ofList s)))
    match outcome with
    | .ok () => loadFileLines visit n file p (number + 1) rest
    | .error e => (p, .error e)

/-- A file and what it includes, to a depth of `levels`.  Every level of includes begins another of
the files, so one level more than there are files is never passed. -/
def visitFile (files : Files) (n : NodeId) :
    Nat → Nat → Progress → String → Progress × Except Failure Unit
  | 0, _, p, _ => (p, .error .missingFile)
  | levels + 1, depth, p, file =>
    let id := identity file
    if id ∈ p.begun then (p.tell (.skip ⟨some file, none⟩ alreadyLoaded none), .ok ())
    else
      let p := { p with begun := id :: p.begun }
      match files.read? file with
      | none => (p, .error .missingFile)
      | some text =>
        loadFileLines (visitFile files n levels (depth + 1)) n file
          (p.tell (.file file id depth)) 1 (Text.lines text.toList)

/-- A failure is told once, with the file that the load began with. -/
def loadInto (f : Forest) (n : NodeId) (files : Files) (file : String) :
    Progress × Except Failure Unit :=
  match visitFile files n (files.length + 1) 0 { forest := f } file with
  | (p, .ok ()) => (p, .ok ())
  | (p, .error e) => (p.tell (.failed ⟨some file, none⟩ e), .error e)

/-- The events of the load, and the new scope or the failure. -/
def loadNew (files : Files) (file : String) : List Event × Except Failure (Forest × NodeId) :=
  let (f, root) := Forest.newRoot {}
  match loadInto f root files file with
  | (p, .ok ()) => (p.events, .ok (p.forest, root))
  | (p, .error e) => (p.events, .error (.unloadable file e))

end LayeredConf.Load
