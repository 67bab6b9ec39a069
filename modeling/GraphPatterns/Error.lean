/-
The errors of the program as it reports them. Each text starts with what the error is about.
-/
import GraphPatterns.Document
import GraphPatterns.Pattern.Parser.Path
import GraphPatterns.Pattern.Validation

namespace GraphPatterns

/-- Why something that was asked for cannot be done. -/
inductive Error where
  | graph (e : GraphError)
  | parse (e : ParseError)
  | pattern (e : PatternError)
  | importing (e : ImportError)
  /-- A file that cannot be read. -/
  | unreadable
  /-- A text that is not a document of the expected form. -/
  | malformed
deriving DecidableEq

def GraphError.message : GraphError → String
  | .noVertex v => "顶点不存在: " ++ v.render
  | .noSource v => "顶点不存在: 源顶点 " ++ v.render ++ " 不存在"
  | .noTarget v => "顶点不存在: 目标顶点 " ++ v.render ++ " 不存在"
  | .noEdge e => "边不存在: " ++ e.render

/-- Whether the error is about the configuration of a pattern and not about its meaning. -/
def PatternError.isConfiguration : PatternError → Bool
  | .crossedBounds .. => true
  | _ => false

/-- The text of an error, if it has one of its own. -/
def Error.message? : Error → Option String
  | .graph e => some e.message
  | .parse e => some ("解析错误: " ++ e.message)
  | .pattern e =>
    some ((if e.isConfiguration then "配置错误: " else "语义错误: ") ++ e.message)
  | .importing e => some ("导入错误: " ++ e.message)
  | .unreadable => none
  | .malformed => none

end GraphPatterns
