import LlmTop.OrderedMap

/-!
# The parsed frame
-/
namespace LlmTop

structure Header where
  ver : Bytes := []
  chk : Bytes := []
  agt : Bytes := []
  uid : Bytes := []
  tim : Bytes := []
  reqid : Bytes := []
  fallback : Bytes := []
  hr : Int := 0

structure ToolCall where
  name : Bytes
  args : OrderedMap
  method : Option Bytes

structure Statement where
  role : Bytes
  kvpairs : OrderedMap
  toolCalls : List ToolCall

def Statement.empty : Statement where
  role := []
  kvpairs := OrderedMap.empty
  toolCalls := []

/-- `healedDraft` holds the statements that were quarantined, `rawFrame` the
entire payload for the integrity check. -/
structure AST where
  header : Header := {}
  statements : List Statement := []
  healedDraft : List Statement := []
  diagnostic : Bytes := []
  recoveryAttempted : Bool := false
  rawFrame : Bytes := []

end LlmTop
