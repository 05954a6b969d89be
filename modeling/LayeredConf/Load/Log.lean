import LayeredConf.Json.Quoted
import LayeredConf.Load.Text
import LayeredConf.Text.Escaped

/-!
# Logs of loads

Load events as lines of text: short ones for every event, or lines for a console, which have three
levels and may leave out entries.  In the rich style short lines have emoji, and console lines have
emoji and colours.
-/

namespace LayeredConf.Load

inductive Style where
  | plain
  | rich
  deriving DecidableEq, Repr

/-- Rich text has an emoji in front. -/
def Style.mark (style : Style) (emoji text : String) : String :=
  if style = .rich then emoji ++ " " ++ text else text

def pageMark : String := "📄"
def linkMark : String := "🔗"
def dotMark : String := "•"
def skipMark : String := "⏭️"
def boomMark : String := "💥"

/-- A type behind its key. -/
def typeText (type : String) : String := if type = "" then "" else ":" ++ type

/-! ## Short lines -/

def shortLine (style : Style) : Event → String
  | .file file identity depth =>
    "[load] " ++ style.mark pageMark file ++ " abs=" ++ identity ++ " depth=" ++ toString depth
  | .inclusion origin target =>
    "[load] " ++ style.mark linkMark "include" ++ " " ++ target ++ " from=" ++ origin.text
  | .entry origin key type =>
    "[entry] " ++ style.mark dotMark key ++ typeText type ++ " at=" ++ origin.text
  | .skip origin reason text? =>
    "[skip] " ++ style.mark skipMark reason ++ " " ++ origin.text ++
      ((text?.map fun t => " " ++ Json.quote t).getD "")
  | .failed origin cause =>
    "[error] " ++ style.mark boomMark cause.message ++
      (if origin.text = "" then "" else " at=" ++ origin.text)

/-! ## Colours -/

def code (n : String) : List Char := '\x1b' :: '[' :: (n.toList ++ ['m'])

/-- A colour or a weight: the codes that begin and end it, and what takes the place of the ending
code within the text. -/
structure Ink where
  start : List Char
  stop : List Char
  resume : List Char

def colour (n : String) : Ink := ⟨code n, code "39", code n⟩
def weight (n : String) : Ink := ⟨code n, code "22", code "22" ++ code n⟩

def bold : Ink := weight "1"
def dim : Ink := weight "2"
def red : Ink := colour "31"
def green : Ink := colour "32"
def yellow : Ink := colour "33"
def magenta : Ink := colour "35"
def cyan : Ink := colour "36"

/-- The characters that make up the first `count` units, and the rest. -/
def splitUnits : Nat → List Char → List Char × List Char
  | _, [] => ([], [])
  | 0, s => ([], s)
  | count + 1, c :: r =>
    let (before, after) := splitUnits (count + 1 - (Text.units c).length) r
    (c :: before, after)

/-- Text in an ink.  The ending code is looked for behind as many units as the beginning one has. -/
def Ink.paint (ink : Ink) (s : String) : String :=
  let (before, after) := splitUnits ink.start.length s.toList
  String.ofList (ink.start ++ before ++ Text.replaceAll ink.stop ink.resume after ++ ink.stop)

def Style.paint (style : Style) (inks : List Ink) (s : String) : String :=
  if style = .rich then inks.foldl (fun s i => i.paint s) s else s

/-! ## Console lines -/

inductive Level where
  | info
  | warn
  | error
  deriving DecidableEq, Repr

structure ConsoleLine where
  level : Level
  text : String
  deriving DecidableEq, Repr

def consoleLine (style : Style) (e : Event) : ConsoleLine :=
  let tag := style.paint [magenta, bold] "[load]" ++ " "
  let path := style.paint [cyan, bold]
  let faint := style.paint [dim]
  match e with
  | .file file identity depth =>
    ⟨.info, tag ++ style.mark pageMark (path file) ++ " " ++
      faint ("abs=" ++ identity ++ " depth=" ++ toString depth)⟩
  | .inclusion origin target =>
    ⟨.info, tag ++ style.mark linkMark "include" ++ " " ++ path target ++ " " ++
      faint ("from=" ++ origin.text)⟩
  | .entry origin key type =>
    ⟨.info, tag ++ style.mark dotMark (style.paint [green] key) ++
      faint (typeText type ++ " at=" ++ origin.text)⟩
  | .skip origin reason text? =>
    ⟨.warn, tag ++ style.mark skipMark (style.paint [yellow] reason) ++ " " ++ origin.text ++
      ((text?.map fun t => " " ++ faint (Json.quote t)).getD "")⟩
  | .failed origin cause =>
    ⟨.error, tag ++ style.mark boomMark (style.paint [red] cause.message) ++ " " ++
      faint origin.text⟩

/-- The events that a console hears of. -/
def consoleHears (entries : Bool) : Event → Bool
  | .entry .. => entries
  | _ => true

def consoleLines (style : Style) (entries : Bool) (events : List Event) : List ConsoleLine :=
  (events.filter (consoleHears entries)).map (consoleLine style)

end LayeredConf.Load
