import LlmTop.Ast
import LlmTop.TokenMint

/-!
# JSON output

`toJson`, text for text.  Objects of keys and values go on one line; the items
of an array have a line each.
-/
namespace LlmTop

/-- A member of an object: the name in quotes, and the text of the value. -/
def memberText (name value : Bytes) : Bytes := ascii "\"" ++ name ++ ascii "\": " ++ value

/-- A member that is not the last one, on a line of its own. -/
def memberLine (indent name : String) (value : Bytes) : Bytes :=
  ascii indent ++ memberText (ascii name) value ++ ascii ",\n"

def entryText (entry : Bytes × Bytes) : Bytes :=
  memberText (escapeJson entry.1) (stringValue entry.2)

/-- The loop that puts a comma in front of every entry but the first. -/
def entriesText : List (Bytes × Bytes) → Bytes
  | [] => []
  | [entry] => entryText entry
  | entry :: rest => entryText entry ++ ascii ", " ++ entriesText rest

def mapText (map : OrderedMap) : Bytes := ascii "\x7b" ++ entriesText map.data ++ ascii "\x7d"

/-- The loop that puts a comma behind every item but the last, and ends the line. -/
def itemLines : List Bytes → Bytes
  | [] => []
  | [item] => item ++ ascii "\n"
  | item :: rest => item ++ ascii ",\n" ++ itemLines rest

def commandText (tc : ToolCall) : Bytes :=
  ascii "        \x7b\n" ++ memberLine "          " "tool" (stringValue tc.name) ++
    (match tc.method with
      | some method => memberLine "          " "method" (stringValue method)
      | none => []) ++
    ascii "          " ++ memberText (ascii "args") (mapText tc.args) ++ ascii "\n        \x7d"

def statementText (stmt : Statement) : Bytes :=
  ascii "    \x7b\n" ++ memberLine "      " "role" (stringValue stmt.role) ++
    memberLine "      " "kvpairs" (mapText stmt.kvpairs) ++
    ascii "      " ++ memberText (ascii "commands")
      (ascii "[\n" ++ itemLines (stmt.toolCalls.map commandText) ++ ascii "      ]") ++
    ascii "\n    \x7d"

def toJson (ast : AST) : Bytes :=
  ascii "\x7b\n" ++ memberLine "  " "version" (stringValue ast.header.ver) ++
    memberLine "  " "checksum" (stringValue ast.header.chk) ++
    memberLine "  " "agent" (stringValue ast.header.agt) ++
    memberLine "  " "uid" (stringValue ast.header.uid) ++
    memberLine "  " "time" (stringValue ast.header.tim) ++
    memberLine "  " "reqid" (stringValue ast.header.reqid) ++
    memberLine "  " "fallback" (stringValue ast.header.fallback) ++
    memberLine "  " "hr" (toDecimal ast.header.hr) ++
    (if ast.diagnostic.isEmpty then []
      else memberLine "  " "diagnostic" (stringValue ast.diagnostic)) ++
    (if ast.recoveryAttempted then memberLine "  " "recovery_attempted" (ascii "true") else []) ++
    ascii "  " ++ memberText (ascii "statements")
      (ascii "[\n" ++ itemLines (ast.statements.map statementText) ++ ascii "  ]") ++
    ascii "\n\x7d\n"

end LlmTop
