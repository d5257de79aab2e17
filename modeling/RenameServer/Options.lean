import RenameServer.Log
import RenameServer.Rename.Service

/-!
The command line. Options may be shortened as long as they stay unambiguous, and
a value follows as the next argument or after an equals sign. What looks like an
option is no value, negative numbers apart; two dashes after an equals sign take
the value away. Asking for help ends the reading at once; arguments that nobody
wanted are an error at the end.
-/
namespace RenameServer

/-- The values of the options. One that was taken away is missing. -/
structure Options where
  preset : Option String
  yieldEvery : Option Int
  logLevel : Option Log.Level
  maxLogLength : Option Int
  deriving Repr, DecidableEq

namespace Options

def default : Options :=
  ⟨some "default", some RenameService.defaultEvery, some .info, some 4000⟩

inductive Flag where
  | help
  | preset
  | yieldEvery
  | logLevel
  | maxLogLength
  deriving Repr, DecidableEq

namespace Flag

/-- The long form of an option. -/
def name : Flag → String
  | .help => "--help"
  | .preset => "--preset"
  | .yieldEvery => "--yield-every"
  | .logLevel => "--log-level"
  | .maxLogLength => "--max-log-length"

/-- How errors call an option. -/
def fullName : Flag → String
  | .help => "-h/--help"
  | other => other.name

def all : List Flag := [.help, .preset, .yieldEvery, .logLevel, .maxLogLength]

/-- The option that a text is the exact form of. -/
def ofText? (text : String) : Option Flag :=
  if text = "-h" then some .help else all.find? fun f => f.name = text

/-- The options that a text begins. -/
def startingWith (text : List Char) : List Flag := all.filter fun f => text.isPrefixOf f.name.toList

end Flag

/-- An argument by its looks: a plain one, the mark after which all are plain,
an option with or without a value of its own, the short option for help and what
is attached to it, or an option that is not known. -/
inductive Argument where
  | plain (text : String)
  | mark
  | option (flag : Flag) (value : Option String)
  | helpAnd (rest : List Char)
  | unknown (text : String)
  deriving Repr, DecidableEq

/-- A minus sign and digits, with a point before the last of them or without. -/
def looksNegative (text : List Char) : Bool :=
  match text with
  | '-' :: rest =>
    let body := if rest.getLast? = some '\n' then rest.dropLast else rest
    let isDigit (c : Char) : Bool := (Text.digit? c).isSome
    let whole := body.takeWhile isDigit
    match body.dropWhile isDigit with
    | [] => !whole.isEmpty
    | '.' :: decimals => !decimals.isEmpty && decimals.all isDigit
    | _ => false
  | _ => false

/-- What an argument that starts with a minus sign can be. An error message if it is ambiguous. -/
def classifyDashed (text : String) : Except String Argument :=
  let chars := text.toList
  let before := chars.takeWhile (· ≠ '=')
  let value := match chars.dropWhile (· ≠ '=') with
    | [] => none
    | _ :: rest => some (String.ofList rest)
  match Flag.ofText? text, Flag.ofText? (String.ofList before), chars with
  | some flag, _, _ => .ok (.option flag none)
  | none, some _, '-' :: 'h' :: '=' :: rest => .ok (.helpAnd rest)
  | none, some flag, _ => .ok (.option flag value)
  | none, none, '-' :: '-' :: _ =>
    match Flag.startingWith before with
    | [flag] => .ok (.option flag value)
    | [] => .ok (if chars.contains ' ' then .plain text else .unknown text)
    | several =>
      let matching := ", ".intercalate (several.map Flag.name)
      .error s!"ambiguous option: {text} could match {matching}"
  | none, none, '-' :: 'h' :: rest => .ok (.helpAnd rest)
  | none, none, _ =>
    .ok (if looksNegative chars ∨ chars.contains ' ' then .plain text else .unknown text)

/-- An argument before the mark. -/
def classify (text : String) : Except String Argument :=
  match text.toList with
  | '-' :: _ :: _ => classifyDashed text
  | _ => .ok (.plain text)

/-- All arguments by their looks. -/
def classifyAll : List String → Except String (List Argument)
  | [] => .ok []
  | text :: rest =>
    if text = "--" then .ok (.mark :: rest.map .plain)
    else do
      let argument ← classify text
      return argument :: (← classifyAll rest)

/-- Why the program ends instead of running: help was asked for, or something is wrong. -/
inductive Refusal where
  | help
  | error (message : String)
  deriving Repr, DecidableEq

def refuse (flag : Flag) (message : String) : Refusal :=
  .error s!"argument {flag.fullName}: {message}"

def integer (flag : Flag) (value : String) : Except Refusal Int :=
  match Integer.ofText value with
  | .ok n => .ok n
  | .error _ => .error (refuse flag s!"invalid int value: {Text.quoted value}")

def level (value : String) : Except Refusal Log.Level :=
  match Log.Level.ofName? value with
  | some l => .ok l
  | none =>
    let choices := ", ".intercalate (Log.Level.all.map fun l => Text.quoted l.name)
    .error (refuse .logLevel s!"invalid choice: {Text.quoted value} (choose from {choices})")

/-- The refusal of a value for help. -/
def ignored (value : String) : Refusal :=
  refuse .help s!"ignored explicit argument {Text.quoted value}"

/-- Set an option to a value. -/
def set (options : Options) (flag : Flag) (value : String) : Except Refusal Options :=
  match flag with
  | .help => .error (ignored value)
  | .preset => .ok { options with preset := some value }
  | .yieldEvery => do return { options with yieldEvery := some (← integer flag value) }
  | .logLevel => do return { options with logLevel := some (← level value) }
  | .maxLogLength => do return { options with maxLogLength := some (← integer flag value) }

/-- Take the value of an option away. -/
def unset (options : Options) (flag : Flag) : Except Refusal Options :=
  match flag with
  | .help => .error (ignored "--")
  | .preset => .ok { options with preset := none }
  | .yieldEvery => .ok { options with yieldEvery := none }
  | .logLevel => .ok { options with logLevel := none }
  | .maxLogLength => .ok { options with maxLogLength := none }

/-- What is attached to the short option for help may only be that option again;
anything else is refused, and so is nothing after an equals sign. -/
def helpAnd : List Char → Refusal
  | ['h'] => .help
  | 'h' :: rest => helpAnd rest
  | other => ignored (String.ofList other)

/-- Read arguments in order: the options, and the arguments that are left over. -/
def collect (options : Options) : List Argument → Except Refusal (Options × List String)
  | [] => .ok (options, [])
  | .plain text :: rest => leave text (collect options rest)
  | .unknown text :: rest => leave text (collect options rest)
  | .mark :: rest => leave "--" (collect options rest)
  | .helpAnd rest :: _ => .error (helpAnd rest)
  | .option .help none :: _ => .error .help
  | .option flag (some value) :: rest =>
    match if value = "--" then options.unset flag else options.set flag value with
    | .ok next => collect next rest
    | .error refusal => .error refusal
  | .option flag none :: .plain value :: rest =>
    match options.set flag value with
    | .ok next => collect next rest
    | .error refusal => .error refusal
  | .option flag none :: _ => .error (refuse flag "expected one argument")
where
  leave (text : String) : Except Refusal (Options × List String) →
      Except Refusal (Options × List String) :=
    Except.map fun (options, extra) => (options, text :: extra)

/-- Read a command line. -/
def parse (argv : List String) : Except Refusal Options :=
  match classifyAll argv with
  | .error message => .error (.error message)
  | .ok arguments =>
    match collect default arguments with
    | .error refusal => .error refusal
    | .ok (options, []) => .ok options
    | .ok (_, extra) =>
      let texts := " ".intercalate extra
      .error (.error s!"unrecognized arguments: {texts}")

def usageText : String :=
  "usage: lsprename [-h] [--preset NAME|PATH] [--yield-every N]\n" ++
  "                 [--log-level \x7bsilent,warn,info,event,debug,trace\x7d]\n" ++
  "                 [--max-log-length N]\n"

def helpText : String :=
  usageText ++
  "\nServe textDocument/rename over stdio.\n\n" ++
  "options:\n" ++
  "  -h, --help            show this help message and exit\n" ++
  "  --preset NAME|PATH    Preset providing the renamers (default: default).\n" ++
  "  --yield-every N       Yield to other requests every N edits (default: 10).\n" ++
  "  --log-level \x7bsilent,warn,info,event,debug,trace\x7d\n" ++
  "                        Set logging verbosity (default: info).\n" ++
  "  --max-log-length N    Maximum log message length; 0 for unlimited (default:\n" ++
  "                        4000).\n"

namespace Refusal

def exitCode : Refusal → Nat
  | .help => 0
  | .error _ => 2

def stdout : Refusal → String
  | .help => helpText
  | .error _ => ""

def stderr : Refusal → String
  | .help => ""
  | .error message => usageText ++ s!"lsprename: error: {message}\n"

end Refusal

/-- The name of the preset; an empty list is shown for one that is missing. -/
def presetName (options : Options) : String := options.preset.getD "[]"

/-- The number of edits between two pauses, which has to be there. -/
def pauseEvery (options : Options) : Except Fault Int :=
  match options.yieldEvery with
  | some n => .ok n
  | none => .error (.wrongKind (.order "<") .arr)

/-- The log settings. The level has to be there, the length need not. -/
def logSettings (options : Options) : Except Fault Log.Settings :=
  match options.logLevel with
  | some level => .ok ⟨level, options.maxLogLength⟩
  | none => .error (.wrongKind .key .arr)

/-- The number of edits between two pauses, which has to be positive, and the
log settings. A missing value is a fault, and what comes first counts. -/
def validate (options : Options) : Except Fault (Except Refusal (Int × Log.Settings)) := do
  let every ← options.pauseEvery
  if every < 1 then return .error (.error "--yield-every must be positive")
  return .ok (every, ← options.logSettings)

end Options

end RenameServer
