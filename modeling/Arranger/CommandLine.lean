import Arranger.Files.Path
import Arranger.Text.Integer
import Arranger.Workspace.Tool

/-!
# The command line

The server is started with options.  An option may be shortened as long as it is the only one that
begins so, its value may follow it or stand behind an equals sign, and of repeated options the last
one counts.  Words that belong to no option are refused at the end; asking for help ends the reading
at once.
-/

namespace Arranger.CommandLine

open Text (quoted)

inductive Flag where
  | help
  | transport
  | port
  | arrangements
  | output
  | debug
  deriving DecidableEq, Repr

/-- All spellings of the options, in the order in which they are listed. -/
def spellings : List (String × Flag) :=
  [("-h", .help), ("--help", .help), ("--transport", .transport), ("--port", .port),
   ("--arrangements-dir", .arrangements), ("--output-dir", .output), ("--debug", .debug)]

/-- How an option is called in a message. -/
def Flag.label (f : Flag) : String :=
  "/".intercalate ((spellings.filter (·.2 = f)).map (·.1))

def Flag.takesValue : Flag → Bool
  | .help => false
  | .debug => false
  | _ => true

/-- Why no service is started. -/
inductive Stop where
  | help
  | ambiguous (word : String) (candidates : List String)
  | noValue (f : Flag)
  | ignoredValue (f : Flag) (value : String)
  | notInteger (f : Flag) (value : String)
  | noChoice (f : Flag) (value : String)
  | unrecognized (words : List String)
  deriving DecidableEq, Repr

def transports : List String := ["stdio", "http"]

def Stop.message : Stop → String
  | .help => ""
  | .ambiguous word candidates =>
      s!"ambiguous option: {word} could match " ++ ", ".intercalate candidates
  | .noValue f => s!"argument {f.label}: expected one argument"
  | .ignoredValue f value => s!"argument {f.label}: ignored explicit argument {quoted value}"
  | .notInteger f value => s!"argument {f.label}: invalid int value: {quoted value}"
  | .noChoice f value =>
      s!"argument {f.label}: invalid choice: {quoted value} (choose from " ++
        ", ".intercalate (transports.map quoted) ++ ")"
  | .unrecognized words => "unrecognized arguments: " ++ " ".intercalate words

/-! ## Words -/

inductive Word where
  | option (f : Flag) (value : Option String)
  /-- Help in one letter, with further letters behind it in the same word. -/
  | cluster (letters : List Char)
  | other
  /-- A word that looks like an option but is none. -/
  | unknown
  deriving DecidableEq, Repr

/-- The parts of a word before and behind its first equals sign. -/
def splitValue (word : String) : String × Option String :=
  let chars := word.toList
  match chars.dropWhile (· != '=') with
  | [] => (word, none)
  | _ :: value => (String.ofList (chars.takeWhile (· != '=')), some (String.ofList value))

/-- What a word may mean in short: options in full behind two dashes, and letters behind one. -/
def candidates (word : String) : List (String × Word) :=
  match word.toList with
  | '-' :: '-' :: _ =>
      let (front, value) := splitValue word
      (spellings.filter fun (name, _) => front.toList.isPrefixOf name.toList).map
        fun (name, f) => (name, .option f value)
  | '-' :: 'h' :: letters => [("-h", .cluster letters)]
  | _ => []

def isNumberDigit (c : Char) : Bool := (Text.digitValue? c).isSome

/-- A minus sign and digits, perhaps with a point in front of the last of them. -/
def isNegativeNumber (word : String) : Bool :=
  let chars := word.toList
  let chars := if chars.getLast? = some '\n' then chars.dropLast else chars
  match chars with
  | '-' :: rest =>
      let (_, behind) := (rest.takeWhile isNumberDigit, rest.dropWhile isNumberDigit)
      match behind with
      | [] => !rest.isEmpty
      | '.' :: fraction => !fraction.isEmpty && fraction.all isNumberDigit
      | _ => false
  | _ => false

def classify (word : String) : Except Stop Word :=
  let chars := word.toList
  if chars.head? != some '-' then .ok .other
  else match spellings.lookup word with
    | some f => .ok (.option f none)
    | none =>
        if chars.length = 1 then .ok .other
        else
          let (front, value) := splitValue word
          match spellings.lookup front, value with
          | some f, some value => .ok (.option f (some value))
          | _, _ => match candidates word with
            | [(_, meaning)] => .ok meaning
            | [] =>
                if isNegativeNumber word || chars.contains ' ' then .ok .other else .ok .unknown
            | several => .error (.ambiguous word (several.map (·.1)))

/-- The kinds of words; behind two dashes all words are of no option. -/
def classifyAll : List String → Except Stop (List (String × Option Word))
  | [] => .ok []
  | word :: rest =>
      if word = "--" then .ok ((word, none) :: rest.map fun other => (other, some .other))
      else do
        let kind ← classify word
        return (word, some kind) :: (← classifyAll rest)

/-! ## Options -/

structure Options where
  isHttp : Bool := false
  port : Int := 8000
  arrangements : Option String := none
  output : Option String := none
  isDebugging : Bool := false
  deriving DecidableEq, Repr

def Options.set (o : Options) (f : Flag) (value : String) : Except Stop Options :=
  match f with
  | .transport =>
      if transports.contains value then .ok { o with isHttp := value = "http" }
      else .error (.noChoice f value)
  | .port => match Text.readInteger value with
    | .ok port => .ok { o with port }
    | .error _ => .error (.notInteger f value)
  | .arrangements => .ok { o with arrangements := some value }
  | .output => .ok { o with output := some value }
  | .help => .error .help
  | .debug => .ok { o with isDebugging := true }

/-- Where letters behind that for help lead: to help, unless they are a value. -/
def clusterStop : List Char → Stop
  | '-' :: rest => .ignoredValue .help (String.ofList ('-' :: rest))
  | 'h' :: '=' :: value => .ignoredValue .help (String.ofList value)
  | 'h' :: rest => clusterStop rest
  | _ => .help

/-- Reads the options; gives the words that belong to none of them too. -/
def readWords : Options → List (String × Option Word) → Except Stop (Options × List String)
  | o, [] => .ok (o, [])
  | _, (_, some (.cluster letters)) :: _ => .error (clusterStop letters)
  | o, (_, some (.option f (some value))) :: rest =>
      if f.takesValue then do readWords (← o.set f value) rest
      else .error (.ignoredValue f value)
  | o, (_, some (.option f none)) :: rest =>
      if f.takesValue then
        match rest with
        | (value, some .other) :: rest => do readWords (← o.set f value) rest
        | _ => .error (.noValue f)
      else do readWords (← o.set f "") rest
  | o, (word, _) :: rest => do
      let (o, extra) ← readWords o rest
      return (o, word :: extra)

def parse (words : List String) : Except Stop Options := do
  let (o, extra) ← readWords {} (← classifyAll words)
  if extra.isEmpty then return o else .error (.unrecognized extra)

/-! ## Starting -/

def programName : String := "chuk-mcp-sclang"

def serverTitle : String := "CHUK SuperCollider MCP Server"

def usage : String := "\n".intercalate
  [s!"usage: {programName} [-h] [--transport \x7bstdio,http\x7d] [--port PORT]",
   "                       [--arrangements-dir ARRANGEMENTS_DIR]",
   "                       [--output-dir OUTPUT_DIR] [--debug]",
   ""]

def helpText : String := usage ++ "\n".intercalate
  ["",
   serverTitle,
   "",
   "options:",
   "  -h, --help            show this help message and exit",
   "  --transport \x7bstdio,http\x7d",
   "                        Transport mode (default: stdio)",
   "  --port PORT           HTTP port (only for http transport)",
   "  --arrangements-dir ARRANGEMENTS_DIR",
   "                        Directory for arrangement YAML files (default:",
   "                        ./arrangements)",
   "  --output-dir OUTPUT_DIR",
   "                        Directory for compiled .scd and .mid files (default:",
   "                        ./output)",
   "  --debug               Enable debug logging",
   ""]

inductive Transport where
  | stdio
  | http (port : Int)
  deriving DecidableEq, Repr

def Transport.text : Transport → String
  | .stdio => "stdio"
  | .http port => s!"http:{port}"

structure Service where
  transport : Transport
  isDebugging : Bool
  arrangements : String
  output : String
  deriving DecidableEq, Repr

def Service.log (s : Service) : List String :=
  [s!"{serverTitle} initialized", s!"  Arrangements dir: {s.arrangements}",
   s!"  Output dir: {s.output}", s!"Starting {serverTitle} ({s.transport.text})"]

inductive Start where
  | exit (code : Nat) (stdout stderr : String)
  | serve (s : Service)
  deriving DecidableEq, Repr

/-- A directory: the one given, if it is not empty, or that of the environment, or the default one
in the current directory. -/
def directory (given : Option String) (environment : List (String × String)) (key : String)
    (fallback : String) : String :=
  match given.filter (!·.isEmpty) with
  | some path => Path.normalText path
  | none => match environment.lookup key with
    | some path => Path.normalText path
    | none => fallback

def Options.service (o : Options) (environment : List (String × String)) (current : String) :
    Service where
  transport := if o.isHttp then .http o.port else .stdio
  isDebugging := o.isDebugging
  arrangements := directory o.arrangements environment "SCLANG_ARRANGEMENTS_DIR"
    s!"{current}/arrangements"
  output := directory o.output environment "SCLANG_OUTPUT_DIR" s!"{current}/output"

/-- What a command line leads to, in an environment and a current directory. -/
def start (words : List String) (environment : List (String × String)) (current : String) :
    Start :=
  match parse words with
  | .ok o => .serve (o.service environment current)
  | .error .help => .exit 0 helpText ""
  | .error stop => .exit 2 "" (usage ++ s!"{programName}: error: {stop.message}\n")

end Arranger.CommandLine
