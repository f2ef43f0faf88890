import LlmTop.Ast
import LlmTop.Decimals

/-!
# The schema validator

`SchemaValidator::validate` with the role table of `init_schemas`.  A result
collects messages; only errors decide whether the frame is valid.
-/
namespace LlmTop

structure FieldSchema where
  name : Bytes
  isPointer : Bool := false

structure StatementSchema where
  requiredFields : List FieldSchema
  optionalFields : List FieldSchema
  allowedTools : List Bytes

def execSchema : StatementSchema where
  requiredFields := [⟨ascii "tgt", true⟩, ⟨ascii "act", false⟩]
  optionalFields := [⟨ascii "GL", false⟩, ⟨ascii "TD", false⟩, ⟨ascii "ctx", false⟩]
  allowedTools := ["run", "exec", "call"].map ascii

def coderSchema : StatementSchema where
  requiredFields := [⟨ascii "tgt", true⟩, ⟨ascii "act", false⟩, ⟨ascii "GL", false⟩]
  optionalFields := [⟨ascii "TD", false⟩, ⟨ascii "ctx", false⟩]
  allowedTools := ["read", "write", "gen"].map ascii

def readSchema : StatementSchema where
  requiredFields := [⟨ascii "tgt", true⟩]
  optionalFields := [⟨ascii "range", false⟩]
  allowedTools := ["read"].map ascii

def planSchema : StatementSchema where
  requiredFields := [⟨ascii "GL", false⟩]
  optionalFields := [⟨ascii "TD", false⟩, ⟨ascii "ctx", false⟩]
  allowedTools := ["plan", "break"].map ascii

/-- The table that `init_schemas` fills. -/
def schemas : List (Bytes × StatementSchema) :=
  [(ascii "EXEC", execSchema), (ascii "CODER", coderSchema), (ascii "READ", readSchema),
    (ascii "PLAN", planSchema)]

structure ValidationResult where
  valid : Bool := false
  errors : List Bytes := []
  warnings : List Bytes := []
deriving DecidableEq

namespace ValidationResult

def error (result : ValidationResult) (message : Bytes) : ValidationResult :=
  { result with errors := result.errors ++ [message] }

def warning (result : ValidationResult) (message : Bytes) : ValidationResult :=
  { result with warnings := result.warnings ++ [message] }

end ValidationResult

structure SchemaValidator where
  requireInbandCapabilities : Bool := false

def SchemaValidator.setRequireInbandCapabilities (v : SchemaValidator) (require : Bool) :
    SchemaValidator :=
  { v with requireInbandCapabilities := require }

/-- `STMT[i]` or `HEALED[i]`, the front of every message about a statement. -/
def statementLabel (healed : Bool) (stmtIndex : Nat) : Bytes :=
  ascii (if healed then "HEALED[" else "STMT[") ++ natDecimal stmtIndex ++ ascii "]"

def missingRole (label : Bytes) : Bytes := label ++ ascii ": Missing role"

def unknownRole (label role : Bytes) : Bytes :=
  label ++ ascii ": Unknown role '" ++ role ++ ascii "' (not in schema)"

def missingField (label role name : Bytes) : Bytes :=
  label ++ ascii "[" ++ role ++ ascii "]: Missing required field '" ++ name ++ ascii "'"

def uncappedField (label role name : Bytes) : Bytes :=
  label ++ ascii "[" ++ role ++ ascii "]: Pointer field '" ++ name ++
    ascii "' missing capability token"

def disallowedTool (label role name : Bytes) : Bytes :=
  label ++ ascii "[" ++ role ++ ascii "]: Tool '" ++ name ++
    ascii "' not in allowed list for this role"

def hasCapability (value : Bytes) : Bool := (Lib.Search.findSub (ascii "cap=") value).isSome

def StatementSchema.allows (schema : StatementSchema) (tool : ToolCall) : Bool :=
  schema.allowedTools.isEmpty || schema.allowedTools.any (tool.name == ·)

namespace SchemaValidator

variable (v : SchemaValidator)

def validateHeader (header : Header) (result : ValidationResult) : Bool × ValidationResult :=
  if header.ver.isEmpty then (false, result.error (ascii "HEADER: Missing VER field"))
  else if header.agt.isEmpty then
    (false, result.error (ascii "HEADER: Missing AGT (agent ID) field"))
  else if header.reqid.isEmpty then
    (false, result.error (ascii "HEADER: Missing REQID (request ID) field"))
  else
    let result :=
      if header.tim.isEmpty then
        result.warning (ascii "HEADER: TIM (timestamp) should be present")
      else result
    let result :=
      if header.chk.isEmpty then result.warning (ascii "HEADER: CHK (checksum) should be present")
      else result
    (true, result)

/-- The loop over the required fields; its early return is the flag `false`. -/
def checkFields (label : Bytes) (stmt : Statement) :
    List FieldSchema → ValidationResult → Bool × ValidationResult
  | [], result => (true, result)
  | field :: rest, result =>
      match stmt.kvpairs.find field.name with
      | none => (false, result.error (missingField label stmt.role field.name))
      | some value =>
          if field.isPointer && !hasCapability value then
            let msg := uncappedField label stmt.role field.name
            if v.requireInbandCapabilities then checkFields label stmt rest (result.error msg)
            else checkFields label stmt rest (result.warning msg)
          else checkFields label stmt rest result

def checkTools (schema : StatementSchema) (label : Bytes) (stmt : Statement)
    (result : ValidationResult) : ValidationResult :=
  stmt.toolCalls.foldl (fun result tool =>
    if schema.allows tool then result
    else result.error (disallowedTool label stmt.role tool.name)) result

def validateStatement (stmt : Statement) (stmtIndex : Nat) (result : ValidationResult)
    (healed : Bool) : Bool × ValidationResult :=
  let label := statementLabel healed stmtIndex
  if stmt.role.isEmpty then (false, result.error (missingRole label))
  else
    match schemas.lookup stmt.role with
    | none => (true, result.warning (unknownRole label stmt.role))
    | some schema =>
        match v.checkFields label stmt schema.requiredFields result with
        | (false, result) => (false, result)
        | (true, result) => (true, checkTools schema label stmt result)

/-- One of the two loops of `validate`; what `validate_statement` returns is ignored. -/
def validateAll (healed : Bool) (stmts : List Statement) (result : ValidationResult) :
    ValidationResult :=
  stmts.zipIdx.foldl (fun result entry =>
    (v.validateStatement entry.1 entry.2 result healed).2) result

def validate (ast : AST) : ValidationResult :=
  match validateHeader ast.header {} with
  | (false, result) => result
  | (true, result) =>
      let result := v.validateAll true ast.healedDraft (v.validateAll false ast.statements result)
      { result with valid := result.errors.isEmpty }

end SchemaValidator
end LlmTop
