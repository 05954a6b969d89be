import LayeredConf.Json.Quoted
import LayeredConf.Value.Basic

/-!
# Failures

What can go wrong, as causes; `Failure.message` has the wording.
-/

namespace LayeredConf

/-- A line of a text, or of a file. -/
structure Place where
  file? : Option String
  line : Nat
  deriving DecidableEq, Repr

def Place.text (p : Place) : String :=
  match p.file? with
  | some file => file ++ ":" ++ toString p.line
  | none => "line " ++ toString p.line

inductive Failure where
  /-- No node has this key path. -/
  | notFound (keys : List String)
  /-- The value does not convert. -/
  | unconvertible (target : String) (value : Value)
  /-- A list with an unset item is no value to convert. -/
  | invalidInput (target : String) (value : Value)
  | unknownType (type raw : String)
  /-- A type name that no text can be read with. -/
  | unusableType (type : String)
  | missingKey (keys : List String) (cause : Failure)
  /-- A node cannot become a child of itself or of what lies below it. -/
  | ownSubtree (key : String)
  | malformedJson
  | notAnObject
  | badLine (place : Place) (line : String)
  | badEntry (place : Place) (cause : Failure)
  | inclusion (place : Place) (target : String) (cause : Failure)
  | missingFile
  | unloadable (file : String) (cause : Failure)
  | emptyExpression
  | unclosedArguments
  | missingSegment
  | unexpectedToken (token : String)
  | unknownFunction (name : String)
  | missingResult (expression : String)
  /-- No such way to treat a missing result. -/
  | badOption
  /-- A failure that a function raised itself. -/
  | raised (text : String)

namespace Failure

def conversionMessage (target : String) (value : Value) : String :=
  "cannot convert " ++ Json.quote value.asText ++ " to " ++ target

def message : Failure → String
  | .notFound _ => "node not found"
  | .unconvertible target value => conversionMessage target value
  | .invalidInput _ _ => "Invalid input"
  | .unknownType type _ => "bad type: \"" ++ type ++ "\""
  | .unusableType type =>
    if type = "toLocaleString" then
      "Object.prototype.toLocaleString called on null or undefined"
    else if type = "__proto__" then "parser is not a function"
    else "Cannot convert undefined or null to object"
  | .missingKey keys cause => "Required conf key " ++ ".".intercalate keys ++ ": " ++ cause.message
  | .ownSubtree key => "cannot adopt \"" ++ key ++ "\" into its own subtree"
  | .malformedJson => "invalid JSON"
  | .notAnObject => "invalid JSON: top-level value must be an object"
  | .badLine place line => place.text ++ ": bad format: \"" ++ line ++ "\""
  | .badEntry place cause => place.text ++ ": " ++ cause.message
  | .inclusion place target cause =>
    place.text ++ ": including \"" ++ target ++ "\": " ++ cause.message
  | .missingFile => "file does not exist"
  | .unloadable file cause =>
    "Could not load configuration from " ++ file ++ ": " ++ cause.message
  | .emptyExpression => "Empty expression"
  | .unclosedArguments => "Expected ')' at end of arguments"
  | .missingSegment => "Expected path segment after '.'"
  | .unexpectedToken token => "Unexpected token '" ++ token ++ "' after expression"
  | .unknownFunction name => "Unknown function '" ++ name ++ "'"
  | .missingResult expression => "Missing value for '" ++ expression ++ "'"
  | .badOption => ""
  | .raised text => text

end Failure

end LayeredConf
