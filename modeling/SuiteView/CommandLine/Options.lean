import SuiteView.Files.Path
import SuiteView.Text.Digits
import SuiteView.Text.Quoted

/-!
# Options

The arguments of a run are switches, most of which take a value: the next argument, or the text
behind an equals sign. A switch may be cut short as long as only one fits. All arguments are sorted
into switches and values before the first is acted on; an argument that looks like a negative number
or holds a space is a value unless it spells a switch, and behind two dashes everything is a value.
Two dashes are never a value themselves: where they stand behind an equals sign they are dropped, and
the switch is given with nothing. Arguments are strings of characters: one with bytes that are no text
cannot be given here, so a path, a pattern or an id of an option never holds half of a surrogate pair.
-/

namespace SuiteView.CommandLine

/-! ### Switches -/

/-- What an argument can ask for. -/
inductive Switch where
  | help
  | plan
  | configFile
  | rootLabel
  | group
  | caseName
  | id
  | noDynamic
  | output
deriving DecidableEq, Repr

namespace Switch

def spelling : Switch → String
  | .help => "--help"
  | .plan => "--plan"
  | .configFile => "--config-file"
  | .rootLabel => "--root-label"
  | .group => "--group"
  | .caseName => "--case"
  | .id => "--id"
  | .noDynamic => "--no-dynamic"
  | .output => "--output"

def all : List Switch :=
  [.help, .plan, .configFile, .rootLabel, .group, .caseName, .id, .noDynamic, .output]

def title : Switch → String
  | .help => "-h/--help"
  | s => s.spelling

def takesValue : Switch → Bool
  | .help | .noDynamic => false
  | _ => true

def ofSpelling? (text : List Char) : Option Switch :=
  all.find? fun s => s.spelling.toList = text

def startingWith (text : List Char) : List Switch :=
  all.filter fun s => text.isPrefixOf s.spelling.toList

end Switch

/-- Why arguments are refused. -/
inductive OptionsError where
  | ambiguous (argument : String) (candidates : List Switch)
  | missingValue (switch : Switch)
  | unexpectedValue (switch : Switch) (value : String)
  | missingPlan
  | unrecognized (arguments : List String)
deriving DecidableEq, Repr

def OptionsError.message : OptionsError → String
  | .ambiguous argument candidates =>
    "ambiguous option: " ++ argument ++ " could match " ++
      ", ".intercalate (candidates.map Switch.spelling)
  | .missingValue s => "argument " ++ s.title ++ ": expected one argument"
  | .unexpectedValue s value =>
    "argument " ++ s.title ++ ": ignored explicit argument " ++ Text.quote value
  | .missingPlan => "the following arguments are required: " ++ Switch.plan.title
  | .unrecognized arguments => "unrecognized arguments: " ++ " ".intercalate arguments

/-! ### Sorting arguments -/

/-- An argument by what it is: a value, a switch with the text behind its equals sign, the short help
switch with the letters behind it, an unknown switch, or two dashes. -/
inductive Word where
  | value (text : String)
  | switch (s : Switch) (attached : Option String)
  | shortHelp (letters : List Char)
  | unknown (text : String)
  | dashes
deriving DecidableEq, Repr

/-- Whether a text is a minus sign and a number: digits, or digits with a point before the last of
them. A newline at the end does not count. -/
def looksNegative (cs : List Char) : Bool :=
  match cs with
  | '-' :: body =>
    let body := if body.getLast? = some '\n' then body.dropLast else body
    let fraction := (body.dropWhile Text.isDecimalDigit)
    match fraction with
    | [] => !body.isEmpty
    | '.' :: digits => !digits.isEmpty && digits.all Text.isDecimalDigit
    | _ => false
  | _ => false

def splitAtEquals (cs : List Char) : List Char × Option String :=
  match cs.dropWhile (· ≠ '=') with
  | [] => (cs, none)
  | _ :: value => (cs.takeWhile (· ≠ '='), some (String.ofList value))

def unspelled (argument : String) : Word :=
  let cs := argument.toList
  if looksNegative cs || cs.contains ' ' then .value argument else .unknown argument

def sortLong (argument : String) : Except OptionsError Word :=
  let (name, attached) := splitAtEquals argument.toList
  match Switch.ofSpelling? name with
  | some s => .ok (.switch s attached)
  | none =>
    match Switch.startingWith name with
    | [] => .ok (unspelled argument)
    | [s] => .ok (.switch s attached)
    | candidates => .error (.ambiguous argument candidates)

def sort (argument : String) : Except OptionsError Word :=
  match argument.toList with
  | '-' :: '-' :: _ => sortLong argument
  | ['-', 'h'] => .ok (.switch .help none)
  | '-' :: 'h' :: '=' :: letters => .ok (.shortHelp letters)
  | '-' :: 'h' :: letters => .ok (.shortHelp letters)
  | '-' :: _ :: _ => .ok (unspelled argument)
  | _ => .ok (.value argument)

/-- Sorts all arguments; behind two dashes everything is a value. -/
def sortAll : List String → Except OptionsError (List Word)
  | [] => .ok []
  | argument :: rest =>
    if argument = "--" then .ok (.dashes :: rest.map .value)
    else do
      let word ← sort argument
      let words ← sortAll rest
      return word :: words

/-! ### Acting on arguments -/

/-- What a switch is given: a value, or nothing where two dashes were dropped. -/
inductive Operand (α : Type) where
  | nothing
  | value (a : α)
deriving DecidableEq, Repr

namespace Operand

def ofAttached (text : String) : Operand Text :=
  if text = "--" then .nothing else .value text

def map {α β : Type} (f : α → β) : Operand α → Operand β
  | .nothing => .nothing
  | .value a => .value (f a)

def value? {α : Type} : Operand α → Option α
  | .nothing => none
  | .value a => some a

end Operand

/-- Why there are no options: help was asked for, or the arguments are refused. -/
inductive Stop where
  | help
  | refused (cause : OptionsError)
deriving DecidableEq, Repr

/-- Switches with what they are given, and arguments that belong to no switch. -/
structure Reading where
  given : List (Switch × Operand Text)
  extras : List String
deriving DecidableEq, Repr

def Reading.empty : Reading := ⟨[], []⟩

def Reading.give (s : Switch) (operand : Operand Text) (r : Reading) : Reading :=
  { r with given := (s, operand) :: r.given }

def Reading.skip (argument : String) (r : Reading) : Reading :=
  { r with extras := argument :: r.extras }

/-- What the short help switch asks for: letters behind it repeat it, anything else is refused. -/
def helpStop (letters : List Char) : Stop :=
  let unread := letters.dropWhile (· = 'h')
  if letters ≠ [] ∧ unread = [] then .help
  else .refused (.unexpectedValue .help (String.ofList unread))

def act : List Word → Except Stop Reading
  | [] => .ok .empty
  | .value text :: rest => (act rest).map (.skip text)
  | .unknown text :: rest => (act rest).map (.skip text)
  | .dashes :: rest => (act rest).map (.skip "--")
  | .shortHelp letters :: _ => .error (helpStop letters)
  | .switch s (some value) :: rest =>
    if s.takesValue then (act rest).map (.give s (.ofAttached value))
    else .error (.refused (.unexpectedValue s value))
  | .switch .help none :: _ => .error .help
  | .switch .noDynamic none :: rest => (act rest).map (.give .noDynamic .nothing)
  | .switch s none :: .value text :: rest => (act rest).map (.give s (.value text))
  | .switch s none :: _ => .error (.refused (.missingValue s))

/-! ### Options -/

/-- What a run is asked to do. -/
structure Options where
  plan : Operand Path
  configFile : Option (Operand Path)
  rootLabel : Option (Operand Text)
  groups : List (Operand Text)
  cases : List (Operand Text)
  ids : List (Operand Text)
  noDynamic : Bool
  output : Option (Operand Path)
deriving DecidableEq, Repr

def Reading.operands (r : Reading) (s : Switch) : List (Operand Text) :=
  r.given.filterMap fun (switch, operand) => if switch = s then some operand else none

def Reading.last? (r : Reading) (s : Switch) : Option (Operand Text) := (r.operands s).getLast?

def Reading.lastPath? (r : Reading) (s : Switch) : Option (Operand Path) :=
  (r.last? s).map (.map Path.ofText)

/-- The options of a reading: a plan is required, and every argument has to belong to a switch. -/
def Reading.options (r : Reading) : Except OptionsError Options :=
  match r.lastPath? .plan with
  | none => .error .missingPlan
  | some plan =>
    if r.extras ≠ [] then .error (.unrecognized r.extras)
    else
      .ok
        { plan := plan
          configFile := r.lastPath? .configFile
          rootLabel := r.last? .rootLabel
          groups := r.operands .group
          cases := r.operands .caseName
          ids := r.operands .id
          noDynamic := (r.last? .noDynamic).isSome
          output := r.lastPath? .output }

def Options.parse (arguments : List String) : Except Stop Options :=
  match sortAll arguments with
  | .error cause => .error (.refused cause)
  | .ok words =>
    match act words with
    | .error stop => .error stop
    | .ok r => r.options.mapError .refused

/-! ### Help -/

def programName : String := "planbridge"

def usage : String :=
  "usage: planbridge [-h] --plan PLAN [--config-file CONFIG_FILE]\n" ++
  "                  [--root-label ROOT_LABEL] [--group GROUP] [--case CASE]\n" ++
  "                  [--id IDS] [--no-dynamic] [--output OUTPUT]\n"

def helpText : String :=
  usage ++
  "\nPlan bridge - mirrors a test plan as a legacy class/method tree\n" ++
  "\noptions:\n" ++
  "  -h, --help            show this help message and exit\n" ++
  "  --plan PLAN           Path to the JSON plan manifest\n" ++
  "  --config-file CONFIG_FILE\n" ++
  "                        Path to the .planbridge_config JSON file\n" ++
  "  --root-label ROOT_LABEL\n" ++
  "                        Label of the root suite (overrides the config file)\n" ++
  "  --group GROUP         Keep nodes whose group name matches this shell pattern\n" ++
  "                        (repeatable)\n" ++
  "  --case CASE           Keep test nodes whose case name matches this shell\n" ++
  "                        pattern (repeatable)\n" ++
  "  --id IDS              Keep the node with this unique id (repeatable)\n" ++
  "  --no-dynamic          Do not replay the manifest's dynamically discovered\n" ++
  "                        tests\n" ++
  "  --output OUTPUT       Path to write the YAML tree report\n"

namespace Stop

def exitCode : Stop → Nat
  | .help => 0
  | .refused _ => 2

def stdout : Stop → String
  | .help => helpText
  | .refused _ => ""

def stderr : Stop → String
  | .help => ""
  | .refused cause => usage ++ programName ++ ": error: " ++ cause.message ++ "\n"

end Stop

end SuiteView.CommandLine
