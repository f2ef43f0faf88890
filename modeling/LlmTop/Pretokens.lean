import LlmTop.Decimals
import LlmTop.Lib.Backtrack

/-!
# Pre-tokens

The hand-written split of a text, and the cl100k_base pattern that it is to
follow.  Between two pre-tokens a position is given by the text from there on.
-/
namespace LlmTop
namespace Cl100kTokenizer

/-! ## Character classes -/

def isLetter (c : UInt8) : Bool :=
  ('A'.toUInt8 ≤ c && c ≤ 'Z'.toUInt8) || ('a'.toUInt8 ≤ c && c ≤ 'z'.toUInt8)

def isDigit (c : UInt8) : Bool := '0'.toUInt8 ≤ c && c ≤ '9'.toUInt8

def isSpace (c : UInt8) : Bool :=
  c == ' '.toUInt8 || c == '\t'.toUInt8 || c == '\n'.toUInt8 || c == '\r'.toUInt8 || c == 11 || c == 12

def isNl (c : UInt8) : Bool := c == '\r'.toUInt8 || c == '\n'.toUInt8

/-- `std::tolower` in the C locale. -/
def toLower (c : UInt8) : UInt8 :=
  if 'A'.toUInt8 ≤ c && c ≤ 'Z'.toUInt8 then c + 32 else c

/-- What `[^\s\p{L}\p{N}]` matches. -/
def isSymbol (c : UInt8) : Bool := !(isSpace c || isLetter c || isDigit c)

/-! ## The blocks of `next_pretoken` -/

/-- Contractions. -/
def contraction : Bytes → Option Nat
  | c :: d :: rest =>
      if c = '\''.toUInt8 then
        let d := toLower d
        if d = 's'.toUInt8 ∨ d = 't'.toUInt8 ∨ d = 'm'.toUInt8 ∨ d = 'd'.toUInt8 then some 2
        else
          match rest with
          | e :: _ =>
              let e := toLower e
              if (d = 'r'.toUInt8 ∧ e = 'e'.toUInt8) ∨ (d = 'v'.toUInt8 ∧ e = 'e'.toUInt8) ∨
                  (d = 'l'.toUInt8 ∧ e = 'l'.toUInt8) then some 3
              else none
          | [] => none
      else none
  | _ => none

/-- An optional leading character, then letters. -/
def letters (text : Bytes) : Option Nat :=
  let c := text.headD 0
  let lead := if !isNl c && !isLetter c && !isDigit c then 1 else 0
  let m := ((text.drop lead).takeWhile isLetter).length
  if 1 ≤ m then some (lead + m) else none

/-- One to three digits. -/
def digits (text : Bytes) : Option Nat :=
  if isDigit (text.headD 0) then some ((text.take 3).takeWhile isDigit).length else none

/-- An optional space, then symbols, then the line ends behind them. -/
def symbols (text : Bytes) : Option Nat :=
  let lead := if text.headD 0 = ' '.toUInt8 then 1 else 0
  let p := ((text.drop lead).takeWhile isSymbol).length
  if 1 ≤ p then some (lead + p + ((text.drop (lead + p)).takeWhile isNl).length) else none

/-- Length of the whitespace run and position of its last line end. -/
def spaceRun : Bytes → Nat → Option Nat → Nat × Option Nat
  | [], run, lastNl => (run, lastNl)
  | c :: rest, run, lastNl =>
      if isSpace c then spaceRun rest (run + 1) (if isNl c then some run else lastNl)
      else (run, lastNl)

/-- Whitespace, through its last line end if it has one. -/
def spaces (text : Bytes) : Option Nat :=
  if isSpace (text.headD 0) then
    let (run, lastNl) := spaceRun text 0 none
    match lastNl with
    | some last => some (last + 1)
    | none => some run
  else none

def nextPretoken (text : Bytes) : Nat :=
  (((((contraction text).or (letters text)).or (digits text)).or (symbols text)).or
    (spaces text)).getD 1

/-! ## The split -/

def requireAscii (text : Bytes) : Except Bytes Unit :=
  match text.findIdx? fun c => 0x80 ≤ c with
  | some i =>
      .error (ascii "Cl100kTokenizer: non-ASCII byte at offset " ++ natDecimal i ++
        ascii "; this tokenizer is ASCII-only and would mis-count the input")
  | none => .ok ()

/-- Each round takes at least one byte, so the fuel is the length of the text. -/
def pretokenLoop : Nat → Bytes → List Bytes
  | 0, _ => []
  | _ + 1, [] => []
  | fuel + 1, c :: rest =>
      let len := nextPretoken (c :: rest)
      (c :: rest).take len :: pretokenLoop fuel ((c :: rest).drop len)

def pretokens (text : Bytes) : Except Bytes (List Bytes) := do
  requireAscii text
  .ok (pretokenLoop text.length text)

/-! ## The pattern -/

open Lib.Backtrack Pattern

/-- `(?i:w)` for an ASCII word. -/
def caseless (word : String) : Pattern UInt8 :=
  literal (fun a b => toLower a == toLower b) (ascii word)

/-- `(?i:'s|'t|'re|'ve|'m|'ll|'d)` -/
def contractionPattern : Pattern UInt8 :=
  alt (caseless "'s") <| alt (caseless "'t") <| alt (caseless "'re") <| alt (caseless "'ve") <|
    alt (caseless "'m") <| alt (caseless "'ll") (caseless "'d")

/-- `[^\r\n\p{L}\p{N}]?\p{L}+` -/
def lettersPattern : Pattern UInt8 :=
  seq (opt (one fun c => !(isNl c || isLetter c || isDigit c))) (plus (one isLetter))

/-- `\p{N}{1,3}` -/
def digitsPattern : Pattern UInt8 :=
  seq (one isDigit) (opt (seq (one isDigit) (opt (one isDigit))))

/-- ` ?[^\s\p{L}\p{N}]+[\r\n]*` -/
def symbolsPattern : Pattern UInt8 :=
  seq (opt (one (· == ' '.toUInt8))) (seq (plus (one isSymbol)) (star (one isNl)))

/-- `\s*[\r\n]+|\s+(?!\S)|\s+` -/
def spacesPattern : Pattern UInt8 :=
  alt (seq (star (one isSpace)) (plus (one isNl))) <|
    alt (seq (plus (one isSpace)) (notAhead (one (!isSpace ·)))) (plus (one isSpace))

/-- The cl100k_base pattern. -/
def cl100kPattern : Pattern UInt8 :=
  alt contractionPattern <| alt lettersPattern <| alt digitsPattern <| alt symbolsPattern spacesPattern

end Cl100kTokenizer
end LlmTop
