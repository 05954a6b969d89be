import LayeredConf.Failure

/-!
# Event dispatching

Listeners are registered for types of events and called in the order of registration when an event
is emitted.  A listener is known by its name; what it does when called is itself a list of steps,
so registering, removing and emitting happen inside of emitting.  The listeners to call are
those registered when the emitting starts.

    perform script fuel d step     one step, and the dispatcher after it
    run script fuel d steps        steps whose answers do not matter, as those of a listener
-/

namespace LayeredConf

namespace Dispatcher

/-- A registration: of the listener itself, or of a wrapper that calls it once, with the number of
the wrapper. -/
inductive Registration where
  | always (listener : String)
  | once (number : Nat) (listener : String)
  deriving DecidableEq, Repr

def Registration.listener : Registration → String
  | .always listener => listener
  | .once _ listener => listener

inductive Step where
  | on (type listener : String)
  | once (type listener : String)
  | off (type listener : String)
  /-- Removes the registration of this number, counted over all of them. -/
  | undo (index : Nat)
  | emit (type : String) (detail : Value)
  | count (type : String)
  | raise (text : String)

inductive Answer where
  | nothing
  /-- The number of a registration. -/
  | index (n : Nat)
  /-- Was there anyone to call? -/
  | heard (b : Bool)
  | count (n : Nat)
  deriving DecidableEq, Repr

/-- A call of a listener, with the registration that led to it. -/
structure Call where
  registration : Registration
  detail : Value

def Call.listener (c : Call) : String := c.registration.listener

/-- What each listener does when called. -/
abbrev Script := List (String × List Step)

end Dispatcher

open Dispatcher in
structure Dispatcher where
  /-- The registrations for each type, oldest first. -/
  registered : List (String × Registration) := []
  /-- Every registration ever made, in order. -/
  made : List (String × Registration) := []
  /-- The calls made so far. -/
  calls : List Call := []

namespace Dispatcher

def registrations (d : Dispatcher) (type : String) : List Registration :=
  (d.registered.filter (·.1 = type)).map (·.2)

/-- Registers for a type; to register the same again changes nothing. -/
def register (d : Dispatcher) (type : String) (r : Registration) : Dispatcher :=
  { d with
    registered := if (type, r) ∈ d.registered then d.registered
                  else d.registered ++ [(type, r)]
    made := d.made ++ [(type, r)] }

def remove (d : Dispatcher) (type : String) (r : Registration) : Dispatcher :=
  { d with registered := d.registered.filter (· ≠ (type, r)) }

def log (d : Dispatcher) (r : Registration) (detail : Value) : Dispatcher :=
  { d with calls := d.calls ++ [⟨r, detail⟩] }

/-- The call of a listener begins; a wrapper removes itself first. -/
def deliver (d : Dispatcher) (type : String) (detail : Value) (r : Registration) : Dispatcher :=
  match r with
  | .always _ => d.log r detail
  | .once _ _ => (d.remove type r).log r detail

def exhausted : Failure := .raised "Maximum call stack size exceeded"

mutual

/-- One step.  Every nested call uses fuel; listeners that call each other without end use up all of
it, which is a failure. -/
def perform (script : Script) : Nat → Dispatcher → Step → Dispatcher × Except Failure Answer
  | _, d, .on type listener =>
    (d.register type (.always listener), .ok (.index d.made.length))
  | _, d, .once type listener =>
    (d.register type (.once d.made.length listener), .ok (.index d.made.length))
  | _, d, .off type listener => (d.remove type (.always listener), .ok .nothing)
  | _, d, .undo index =>
    match d.made[index]? with
    | some (type, r) => (d.remove type r, .ok .nothing)
    | none => (d, .ok .nothing)
  | _, d, .count type => (d, .ok (.count (d.registrations type).length))
  | _, d, .raise text => (d, .error (.raised text))
  | 0, d, .emit _ _ => (d, .error exhausted)
  | fuel + 1, d, .emit type detail =>
    match d.registrations type with
    | [] => (d, .ok (.heard false))
    | rs =>
      match callAll script fuel d type detail rs with
      | (d, .ok ()) => (d, .ok (.heard true))
      | (d, .error e) => (d, .error e)

/-- Calls listeners in turn until one fails. -/
def callAll (script : Script) : Nat → Dispatcher → String → Value → List Registration →
    Dispatcher × Except Failure Unit
  | _, d, _, _, [] => (d, .ok ())
  | 0, d, _, _, _ :: _ => (d, .error exhausted)
  | fuel + 1, d, type, detail, r :: rs =>
    match run script fuel (d.deliver type detail r) ((script.lookup r.listener).getD []) with
    | (d, .ok ()) => callAll script fuel d type detail rs
    | (d, .error e) => (d, .error e)

/-- Steps in turn until one fails. -/
def run (script : Script) : Nat → Dispatcher → List Step → Dispatcher × Except Failure Unit
  | _, d, [] => (d, .ok ())
  | 0, d, _ :: _ => (d, .error exhausted)
  | fuel + 1, d, step :: steps =>
    match perform script fuel d step with
    | (d, .ok _) => run script fuel d steps
    | (d, .error e) => (d, .error e)

end

end Dispatcher

end LayeredConf
