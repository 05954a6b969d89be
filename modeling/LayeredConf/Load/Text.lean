import LayeredConf.Failure
import LayeredConf.Forest.Writing
import LayeredConf.Load.Entry
import LayeredConf.Text.Blank

/-!
# Loading text

The lines of a text are written below a node one by one.  An entry whose value does not convert ends
the load; a line that is none of a line's forms does so only if it must not be skipped.

    loadText f n strict text      the load of a text into the node `n`
-/

namespace LayeredConf.Load

/-! ## Events -/

/-- Where in the input something happened, as far as it is known. -/
structure Origin where
  file? : Option String := none
  line? : Option Nat := none
  deriving DecidableEq, Repr

/-- The file and the line with a colon between them. -/
def Origin.text (o : Origin) : String :=
  ":".intercalate (o.file?.toList ++ (o.line?.map toString).toList)

inductive Event where
  | file (file identity : String) (depth : Nat)
  | inclusion (origin : Origin) (target : String)
  | entry (origin : Origin) (key type : String)
  | skip (origin : Origin) (reason : String) (text? : Option String)
  | failed (origin : Origin) (cause : Failure)

/-- Why something is skipped. -/
def alreadyLoaded : String := "already-loaded"
def badFormat : String := "bad-format"

/-! ## Lines -/

/-- A load under way: the nodes so far, the events told so far, and the identities of the files that
were begun. -/
structure Progress where
  forest : Forest
  events : List Event := []
  begun : List String := []

def Progress.tell (p : Progress) (e : Event) : Progress := { p with events := p.events ++ [e] }

/-- Writes an entry below a node, if its value converts. -/
def Progress.write (p : Progress) (n : NodeId) (place : Place) (e : Entry) :
    Progress × Except Failure Unit :=
  match readTyped e.type e.raw with
  | .error cause => (p, .error (.badEntry place cause))
  | .ok v =>
    let p := { p with forest := (p.forest.setDotted n e.key v).1 }
    (p.tell (.entry ⟨place.file?, some place.line⟩ e.key e.type), .ok ())

/-- One line of a text. -/
def loadLine (n : NodeId) (strict : Bool) (p : Progress) (number : Nat) (s : List Char) :
    Progress × Except Failure Unit :=
  let origin : Origin := ⟨none, some number⟩
  let place : Place := ⟨none, number⟩
  match Line.readPlain s with
  | .entry e => p.write n place e
  | .unknown =>
    let line := String.ofList s
    if strict then (p, .error (.badLine place line))
    else (p.tell (.skip origin badFormat (some line)), .ok ())
  | _ => (p, .ok ())

/-- The lines from a number on; the failure that ends them is told with its line. -/
def loadLines (n : NodeId) (strict : Bool) :
    Progress → Nat → List (List Char) → Progress × Except Failure Unit
  | p, _, [] => (p, .ok ())
  | p, number, s :: rest =>
    match loadLine n strict p number s with
    | (p, .ok ()) => loadLines n strict p (number + 1) rest
    | (p, .error e) => (p.tell (.failed ⟨none, some number⟩ e), .error e)

def loadText (f : Forest) (n : NodeId) (strict : Bool) (text : String) :
    Progress × Except Failure Unit :=
  loadLines n strict { forest := f } 1 (Text.lines text.toList)

end LayeredConf.Load
