/-
The arguments of the command line, and the session that they ask for. Arguments are read from left to
right, and the first that cannot be read decides; none may be given twice. The value of an option is
the next argument or stands after it, with an equals sign or, for a short option, without one.
-/
import GraphPatterns.Console.Standard

namespace GraphPatterns

/-- What the arguments ask for. -/
structure Options where
  graph : Option String := none
  config : Option String := none
  maxPathLength : Option Nat := none
  maxSteps : Option Nat := none
  ties : Option TiePolicy := none
  scope : Option SearchScope := none
  log : Option String := none
  /-- A single pattern to be matched. -/
  execute : Option String := none
  json : Bool := false

/-- What to do. -/
inductive Command where
  | help
  | version
  | run (o : Options)

namespace CommandLine

/-- An option that takes a value. -/
inductive Setting where
  | graph
  | config
  | maxPathLength
  | maxSteps
  | ties
  | scope
  | log
  | execute
deriving DecidableEq

def Setting.all : List Setting :=
  [.graph, .config, .maxPathLength, .maxSteps, .ties, .scope, .log, .execute]

def Setting.longName : Setting → String
  | .graph => "graph"
  | .config => "config"
  | .maxPathLength => "max-path-length"
  | .maxSteps => "max-steps"
  | .ties => "ties"
  | .scope => "scope"
  | .log => "log"
  | .execute => "execute"

def Setting.shortName? : Setting → Option Char
  | .graph => some 'g'
  | .config => some 'c'
  | .execute => some 'e'
  | _ => none

/-- The name of a file, which may not be empty. -/
def fileName? (value : String) : Option String := if value.isEmpty then none else some value

/-- A number of at most 64 bits; a plus sign may stand before it. -/
def number? (value : String) : Option Nat :=
  match value.toList with
  | '+' :: digits => Number.readWord? digits
  | digits => Number.readWord? digits

/-- The name of a choice on the command line. -/
def choiceName (name : String) : String := name.map fun c => if c = '_' then '-' else c

def ties? (value : String) : Option TiePolicy :=
  TiePolicy.all.find? fun t => choiceName t.render == value

def scope? (value : String) : Option SearchScope :=
  SearchScope.all.find? fun s => choiceName s.render == value

/-- Fills a field that is still empty with a value that can be read. -/
def fill {α : Type} (field : Option α) (value : Option α) (set : α → Options) : Option Options :=
  match field with
  | some _ => none
  | none => value.map set

def Setting.apply (o : Options) (value : String) : Setting → Option Options
  | .graph => fill o.graph (fileName? value) fun v => { o with graph := some v }
  | .config => fill o.config (fileName? value) fun v => { o with config := some v }
  | .maxPathLength =>
    fill o.maxPathLength (number? value) fun v => { o with maxPathLength := some v }
  | .maxSteps => fill o.maxSteps (number? value) fun v => { o with maxSteps := some v }
  | .ties => fill o.ties (ties? value) fun v => { o with ties := some v }
  | .scope => fill o.scope (scope? value) fun v => { o with scope := some v }
  | .log => fill o.log (some value) fun v => { o with log := some v }
  | .execute => fill o.execute (some value) fun v => { o with execute := some v }

/-- An argument on its own. -/
inductive Argument where
  | help
  | version
  | json
  /-- An option, with its value if it stands in the same argument. -/
  | setting (s : Setting) (value : Option String)
  /-- Two dashes: no options after this. -/
  | endOfOptions

/-- An option in its long form. -/
def readLong (name : List Char) : Option Argument :=
  let (name, value) := name.span (· != '=')
  let name := String.ofList name
  let value :=
    match value with
    | [] => none
    | _ :: value => some (String.ofList value)
  match Setting.all.find? fun s => s.longName == name with
  | some s => some (.setting s value)
  | none =>
    match name, value with
    | "json", none => some .json
    | "help", none => some .help
    | "version", none => some .version
    | _, _ => none

/-- An option in its short form, with what stands after it. -/
def readShort (c : Char) (rest : List Char) : Option Argument :=
  match Setting.all.find? fun s => s.shortName? == some c with
  | some s =>
    match rest with
    | [] => some (.setting s none)
    | '=' :: value => some (.setting s (some (String.ofList value)))
    | value => some (.setting s (some (String.ofList value)))
  | none =>
    match c with
    | 'h' => some .help
    | 'V' => some .version
    | _ => none

def readArgument (a : String) : Option Argument :=
  match a.toList with
  | '-' :: '-' :: [] => some .endOfOptions
  | '-' :: '-' :: name => readLong name
  | '-' :: c :: rest => readShort c rest
  | _ => none

/-- Whether an argument can be the value of the option before it. -/
def isValue (a : String) : Bool :=
  match a.toList with
  | '-' :: _ :: _ => false
  | _ => true

/-- Reads the arguments after those that are read already. -/
def parseFrom (o : Options) : List String → Option Command
  | [] => some (.run o)
  | a :: rest =>
    match readArgument a with
    | none => none
    | some .help => some .help
    | some .version => some .version
    | some .endOfOptions => if rest.isEmpty then some (.run o) else none
    | some .json => if o.json then none else parseFrom { o with json := true } rest
    | some (.setting s (some value)) => (s.apply o value).bind fun o => parseFrom o rest
    | some (.setting s none) =>
      match rest with
      | [] => none
      | value :: rest =>
        if isValue value then (s.apply o value).bind fun o => parseFrom o rest else none

/-- Reads all arguments, if they can be read. -/
def parse (arguments : List String) : Option Command := parseFrom {} arguments

end CommandLine

/-! ## Starting a session -/

/-- Why a session cannot start. -/
inductive StartError where
  | config (file : String)
  | graph (file : String)

def StartError.message : StartError → String
  | .config file => "无法加载配置文件 " ++ file
  | .graph file => "无法加载图文档 " ++ file

/-- The contents of files by name, `none` for a file that cannot be read. -/
abbrev Files := String → Option String

namespace Options

/-- The configuration: that of the file, with what the arguments say instead. -/
def matchConfig (o : Options) (files : Files) : Except StartError MatchConfig := do
  let config ←
    match o.config with
    | none => pure {}
    | some file =>
      match ((files file).bind Json.read?).bind MatchConfig.ofJson? with
      | some config => pure config
      | none => throw (.config file)
  return {
    maxPathLength := o.maxPathLength.getD config.maxPathLength
    maxSteps := o.maxSteps.or config.maxSteps
    shortestTies := o.ties.getD config.shortestTies
    searchScope := o.scope.getD config.searchScope
    strictCatalog := config.strictCatalog }

def loadGraph (o : Options) (files : Files) : Except StartError Graph :=
  match o.graph with
  | none => .ok .empty
  | some file =>
    match (files file).bind GraphDocument.read? with
    | none => .error (.graph file)
    | some d => d.toGraph.mapError fun _ => .graph file

/-- The session that is asked for. -/
def session (o : Options) (files : Files) : Except StartError Session := do
  let config ← o.matchConfig files
  let graph ← o.loadGraph files
  return .start graph config (if o.json then .json else .table)

end Options

/-! ## Output -/

namespace CommandLine

def programName : String := "gqlpath"

def versionLine : String := programName ++ " 0.1.0\n"

def usage : String :=
  "Usage: " ++ programName ++ " [OPTIONS]\n\nOptions:\n" ++ String.join
    (Setting.all.map fun s =>
      "  " ++ ((s.shortName?.map fun c => "-" ++ c.toString ++ ", ").getD "    ") ++
        "--" ++ s.longName ++ " <VALUE>\n") ++
    "      --json\n  -h, --help\n  -V, --version\n"

/-- The line on the error output with which a run ends that fails. -/
def errorLine (message : String) : String := "Error: " ++ message ++ "\n"

/-- The line on the error output for a line of input that fails. -/
def failureLine (message : String) : String := "错误: " ++ message ++ "\n"

end CommandLine

/-- What a run leaves behind. -/
structure Output where
  code : Nat
  out : String
  err : String

namespace Output

/-- The output of a program that ends before its time, as it does over matches that have no text. -/
def crashed : Output := ⟨101, "", ""⟩

/-- The output of a session on lines of input, with the time that each line takes. -/
def ofLines (p : Printer) (milliseconds : Nat) (s : Session) : List String → Output
  | [] => ⟨0, "", ""⟩
  | line :: rest =>
    let (response, s) := s.respond line
    match response.answer? p milliseconds with
    | some .exit => ⟨0, "", ""⟩
    | some .skip => ofLines p milliseconds s rest
    | some (.message text) =>
      let later := ofLines p milliseconds s rest
      { later with out := text ++ later.out }
    | some (.failure text) =>
      let later := ofLines p milliseconds s rest
      { later with err := CommandLine.failureLine text ++ later.err }
    | none => crashed

/-- The output of a session on a single pattern. -/
def ofPattern (p : Printer) (milliseconds : Nat) : Except Error (Response × Tally) → Output
  | .ok (response, _) =>
    match response.answer? p milliseconds with
    | some (.message text) => ⟨0, text, ""⟩
    | some (.failure text) => ⟨1, "", CommandLine.errorLine text⟩
    | some _ => ⟨0, "", ""⟩
    | none => crashed
  | .error e => ⟨1, "", CommandLine.errorLine (e.message?.getD "")⟩

/-- The output of a run that cannot start, or that has nothing to start. -/
def ofRefusal : Option Command → Output
  | some .help => ⟨0, CommandLine.usage, ""⟩
  | some .version => ⟨0, CommandLine.versionLine, ""⟩
  | _ => ⟨2, "", CommandLine.usage⟩

def ofStartError (e : StartError) : Output := ⟨1, "", CommandLine.errorLine e.message⟩

/-- The output of a whole run, if each search takes the given time. -/
def ofRun (milliseconds : Nat) (files : Files) (arguments : List String) (input : String) :
    Output :=
  match CommandLine.parse arguments with
  | some (.run o) =>
    match o.session files, o.execute with
    | .error e, _ => ofStartError e
    | .ok s, some pattern => ofPattern .standard milliseconds (s.runPattern pattern)
    | .ok s, none => ofLines .standard milliseconds s ((Text.lines input.toList).map String.ofList)
  | command => ofRefusal command

end Output

end GraphPatterns
