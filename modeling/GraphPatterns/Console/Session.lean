/-
A console session on a graph. Each line is a command or a pattern; of the lines before it a session
keeps only the counters of the last search.
-/
import GraphPatterns.Console.Report
import GraphPatterns.Error

namespace GraphPatterns

/-- What a line asks for. -/
inductive Request where
  | nothing
  | help
  | exit
  | stats
  | pattern (text : String)
deriving DecidableEq

namespace Request

/-- The word of a command: a line without regard to the case of its letters. The words have letters of
ASCII only, and no other letter becomes one of these in lower case. -/
def commandWord (line : List Char) : String := String.ofList (line.map Char.toLower)

/-- A line is a pattern if it is not blank and not the word of a command. -/
def ofLine (line : String) : Request :=
  let line := Text.trim line.toList
  if line.isEmpty then .nothing
  else
    let word := commandWord line
    if word ∈ ["help", "h", "?"] then .help
    else if word ∈ ["quit", "exit", "q"] then .exit
    else if word = "stats" then .stats
    else .pattern (String.ofList line)

end Request

/-- What a session does with a line. -/
inductive Response where
  /-- Nothing, for an empty line. -/
  | skip
  | exit
  | message (text : String)
  | failure (text : String)
  /-- The counters of the last search. -/
  | counters (t : Tally)
  /-- The matches of a pattern, and how they are to be printed. -/
  | matched (mode : PrintMode) (note : String) (found : List Match)

/-- What a session answers to a line. -/
inductive Answer where
  /-- Nothing, for an empty line. -/
  | skip
  | exit
  | message (text : String)
  | failure (text : String)
deriving DecidableEq

/-- What is told of JSON that is not written. -/
def unwrittenMessage (reason : String) : String := "序列化错误: " ++ reason

/-- The answer that a response comes to, with the time that it took, if what it shows has a text. -/
def Response.answer? (p : Printer) (milliseconds : Nat) : Response → Option Answer
  | .skip => some .skip
  | .exit => some .exit
  | .message text => some (.message text)
  | .failure text => some (.failure text)
  | .counters t => (p.counters? t).map .message
  | .matched mode note found =>
    match p.print mode found milliseconds with
    | .ok text => some (.message (text ++ note))
    | .error (.unwritten reason) => some (.failure (unwrittenMessage reason))
    | .error .crash => none

/-- A session: its graph and its settings, and the counters of the last search. -/
structure Session where
  graph : Graph
  config : MatchConfig
  mode : PrintMode
  last : Option Tally := none

namespace Session

/-- The most edges that a search looks at if nothing else is asked for. -/
def usualMaxSteps : Nat := 1000000

/-- A session before its first line. The number of steps is always limited. -/
def start (graph : Graph) (config : MatchConfig) (mode : PrintMode) : Session where
  graph := graph
  config := { config with maxSteps := some (config.maxSteps.getD usualMaxSteps) }
  mode := mode

/-- The help text. -/
def help : String :=
  "\n".intercalate [
    "",
    "═══════════════════════════════════════════════════════════════",
    "                   gqlpath 模式匹配帮助",
    "═══════════════════════════════════════════════════════════════",
    "",
    "每行输入一个图模式（可省略 MATCH 关键字）:",
    "  MATCH (a:Person)-[e:KNOWS]->(b)",
    "  MATCH ALL SHORTEST (a)-[]->+(b) WHERE a.name = 'Alice'",
    "  MATCH ANY 3 TRAIL (a)(()-[e]->())\x7b2,4\x7d(b)",
    "  MATCH p = SHORTEST 2 GROUPS (a:City)-[:ROAD]-*(b:City)",
    "  MATCH DIFFERENT EDGES (a)-[e1]->(b), (b)-[e2]->(c)",
    "",
    "路径模式: WALK | TRAIL | SIMPLE | ACYCLIC",
    "搜索前缀: ALL | ANY [k] | ANY SHORTEST | ALL SHORTEST",
    "          | SHORTEST k | SHORTEST k GROUPS",
    "量词:     * + ? \x7bn\x7d \x7bm,n\x7d \x7bm,\x7d",
    "",
    "控制台命令:",
    "  help, h, ?     显示帮助",
    "  quit, exit, q  退出程序",
    "  stats          显示上一次匹配的搜索统计",
    "",
    "提示: 在模式末尾加 \\G 可垂直显示结果",
    "      未指定 --max-steps 时每次匹配最多展开 1000000 条边，",
    "      超出后结果被截断",
    "",
    "═══════════════════════════════════════════════════════════════",
    ""]

/-- A remark on results that were cut off. -/
def note (s : Session) (mode : PrintMode) (t : Tally) : String :=
  if t.truncated && mode != .json then
    "结果不完整：搜索在 " ++ toString t.edgesExpanded ++ " 步 / 路径长度 " ++
      toString s.config.maxPathLength ++ " 处截断\n"
  else ""

/-- Parses a pattern and finds all its matches. -/
def find (s : Session) (text : String) : Except Error (List Match × Tally) := do
  let pattern ← (GraphPattern.parse text).mapError Error.parse
  (pattern.matches ⟨s.graph.store, s.config, []⟩).mapError Error.pattern

/-- The mode in which the matches of a pattern are printed. -/
def modeFor (s : Session) (vertical : Bool) : PrintMode :=
  if vertical && s.mode == .table then .vertical else s.mode

/-- Matches a pattern. A mark at its end asks for vertical output of this pattern. -/
def runPattern (s : Session) (line : String) : Except Error (Response × Tally) := do
  let (text, vertical) := Report.verticalMark line
  let (found, tally) ← s.find text
  let mode := s.modeFor vertical
  return (.matched mode (s.note mode tally) found, tally)

/-- Responds to a line. -/
def respond (s : Session) (line : String) : Response × Session :=
  match Request.ofLine line with
  | .nothing => (.skip, s)
  | .help => (.message help, s)
  | .exit => (.exit, s)
  | .stats =>
    match s.last with
    | some t => (.counters t, s)
    | none => (.failure "尚未执行任何匹配", s)
  | .pattern text =>
    match s.runPattern text with
    | .ok (response, t) => (response, { s with last := some t })
    | .error e => (.failure (e.message?.getD ""), s)

end Session

end GraphPatterns
