import LlmTop.Bytes

/-!
# Tokens

Quote-aware splitting, unquoting and the separators of key/value tokens.
-/
namespace LlmTop

def quote : UInt8 := '"'.toUInt8
def backslash : UInt8 := '\\'.toUInt8

structure LexState where
  tokens : List Bytes := []
  current : Bytes := []
  inQuotes : Bool := false
  inEscape : Bool := false

def lexStep (delim : UInt8) (s : LexState) (c : UInt8) : LexState :=
  if s.inEscape then { s with current := s.current ++ [c], inEscape := false }
  else if c = backslash ∧ s.inQuotes then
    { s with current := s.current ++ [c], inEscape := true }
  else if c = quote then
    { s with inQuotes := !s.inQuotes, current := s.current ++ [c] }
  else if c = delim ∧ ¬ s.inQuotes then
    if s.current ≠ [] then { s with tokens := s.tokens ++ [s.current], current := [] } else s
  else { s with current := s.current ++ [c] }

def LexState.finish (s : LexState) : List Bytes :=
  if s.current ≠ [] then s.tokens ++ [s.current] else s.tokens

def lexSplit (str : Bytes) (delim : UInt8) : List Bytes :=
  (str.foldl (lexStep delim) {}).finish

/-- The body of a quoted string; an escape that is not known keeps both bytes. -/
def unescape : Bytes → Bytes
  | [] => []
  | [c] => [c]
  | c :: next :: rest =>
      if c = backslash then
        if next = 'n'.toUInt8 then '\n'.toUInt8 :: unescape rest
        else if next = 't'.toUInt8 then '\t'.toUInt8 :: unescape rest
        else if next = 'r'.toUInt8 then '\r'.toUInt8 :: unescape rest
        else if next = backslash then backslash :: unescape rest
        else if next = quote then quote :: unescape rest
        else c :: next :: unescape rest
      else c :: unescape (next :: rest)

def unquoteAndUnescape (s : Bytes) : Bytes :=
  if s.length < 2 ∨ s.head? ≠ some quote ∨ s.getLast? ≠ some quote then s
  else unescape (s.drop 1).dropLast

def isTrimmed (c : UInt8) : Bool :=
  c == ' '.toUInt8 || c == '\t'.toUInt8 || c == '\r'.toUInt8 || c == '\n'.toUInt8

def trim (s : Bytes) : Bytes := Lib.Search.trimBoth isTrimmed s

/-- What the body loop erases at both ends of a line. -/
def isBlank (c : UInt8) : Bool :=
  c == ' '.toUInt8 || c == '\r'.toUInt8 || c == '\t'.toUInt8

def trimLine (line : Bytes) : Bytes := Lib.Search.trimBoth isBlank line

def isBareIdentifier (s : Bytes) : Bool :=
  !s.isEmpty && s.all fun c => isAlnum c || c == '_'.toUInt8

def minPos : Option Nat → Option Nat → Option Nat
  | none, j => j
  | i, none => i
  | some i, some j => some (min i j)

/-- The key and the raw value of a token, at the first `:` or at an earlier `=`
that binds a bare identifier. -/
def splitToken (token : Bytes) : Option (Bytes × Bytes) :=
  let colon := Lib.Search.find ':'.toUInt8 token
  let equals := (Lib.Search.find '='.toUInt8 token).filter fun i => isBareIdentifier (token.take i)
  (minPos colon equals).map fun sep => (token.take sep, token.drop (sep + 1))

/-- The key and the raw value of a tool argument. -/
def splitArg (arg : Bytes) : Option (Bytes × Bytes) :=
  (Lib.Search.find '='.toUInt8 arg).map fun eq => (arg.take eq, arg.drop (eq + 1))

/-- A double quote is left open at the end of the line; a backslash escapes
here outside quotes as well. -/
def quoteOpen (line : Bytes) : Bool :=
  let step := fun (s : Bool × Bool) (c : UInt8) =>
    if s.2 then (s.1, false)
    else if c = backslash then (s.1, true)
    else if c = quote then (!s.1, false)
    else s
  (line.foldl step (false, false)).1

/-- Position of the first `]` outside quotes. -/
def closingBracket (inQuotes inEscape : Bool) : Bytes → Option Nat
  | [] => none
  | c :: cs =>
      if inEscape then (closingBracket inQuotes false cs).map (· + 1)
      else if c = backslash ∧ inQuotes then (closingBracket inQuotes true cs).map (· + 1)
      else if c = quote then (closingBracket (!inQuotes) false cs).map (· + 1)
      else if c = ']'.toUInt8 ∧ ¬ inQuotes then some 0
      else (closingBracket inQuotes false cs).map (· + 1)

example : lexSplit (ascii "a:\"x y\" b=1") ' '.toUInt8 = [ascii "a:\"x y\"", ascii "b=1"] := by
  decide
example : splitToken (ascii "cap:a=b") = some (ascii "cap", ascii "a=b") := by decide
example : splitToken (ascii "!read[path=x]") = none := by decide

end LlmTop
