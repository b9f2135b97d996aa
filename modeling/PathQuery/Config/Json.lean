import PathQuery.Text.Parser
import PathQuery.Text.Blank

/-!
# JSON documents

* `Json`: documents as they are written.  A number keeps its characters; a string keeps its code
  units, so a lone surrogate can be read although it stands for no character;
* `Json.ofText`: the document that a text writes;
* `Json.render`: a text that writes a document;
* `Json.toNatBelow`, `Json.toText`: the two kinds of plain values;
* `Json.record`: the values of a record with known fields, given as an object or as an array.
-/

namespace PathQuery

inductive Json where
  | null
  | bool (b : Bool)
  | number (digits : List Char)
  | string (units : List Nat)
  | array (items : List Json)
  | object (members : List (List Nat × Json))
  deriving Repr

namespace Json

open PathQuery.Parser

/-! ## Strings -/

def hexDigit : Parser Nat
  | c :: rest =>
    if c.isDigit then .ok (c.toNat - '0'.toNat, rest)
    else if 'a' ≤ c && c ≤ 'f' then .ok (c.toNat - 'a'.toNat + 10, rest)
    else if 'A' ≤ c && c ≤ 'F' then .ok (c.toNat - 'A'.toNat + 10, rest)
    else .error (c :: rest)
  | [] => .error []

def hexUnit : Parser Nat := do
  let a ← hexDigit
  let b ← hexDigit
  let c ← hexDigit
  let d ← hexDigit
  pure (((a * 16 + b) * 16 + c) * 16 + d)

/-- What may follow a backslash. -/
def escaped : Parser Nat
  | '"' :: rest => .ok (0x22, rest)
  | '\\' :: rest => .ok (0x5C, rest)
  | '/' :: rest => .ok (0x2F, rest)
  | 'b' :: rest => .ok (0x08, rest)
  | 'f' :: rest => .ok (0x0C, rest)
  | 'n' :: rest => .ok (0x0A, rest)
  | 'r' :: rest => .ok (0x0D, rest)
  | 't' :: rest => .ok (0x09, rest)
  | 'u' :: rest => hexUnit rest
  | s => .error s

/-- A character of a string, or an escape. -/
def unit : Parser Nat
  | '"' :: rest => .error ('"' :: rest)
  | '\\' :: rest => escaped rest
  | c :: rest => if c.toNat < 0x20 then .error (c :: rest) else .ok (c.toNat, rest)
  | [] => .error []

def stringUnits : Parser (List Nat) := do
  char '"'
  let units ← many unit
  char '"'
  pure units

/-! ## Numbers -/

def digits1 : Parser (List Char) :=
  takeWhile1 Char.isDigit

/-- No digit may follow a leading zero. -/
def integerDigits : Parser (List Char) := do
  let digits ← digits1
  if digits.head? == some '0' && 1 < digits.length then fail else pure digits

def sign (signs : List Char) : Parser (List Char)
  | c :: rest => if signs.contains c then .ok ([c], rest) else .ok ([], c :: rest)
  | [] => .ok ([], [])

def fraction : Parser (List Char) := do
  char '.'
  let digits ← digits1
  pure ('.' :: digits)

def exponentPart : Parser (List Char) := do
  orElse (char 'e') (char 'E')
  let sign ← sign ['+', '-']
  let digits ← digits1
  pure ('e' :: sign ++ digits)

/-- The part if its first character is there; then all of it has to be. -/
def partAfter (starts : List Char) (p : Parser (List Char)) : Parser (List Char) :=
  fun s =>
    match s with
    | c :: _ => if starts.contains c then p s else .ok ([], s)
    | [] => .ok ([], [])

def numberDigits : Parser (List Char) := do
  let minus ← sign ['-']
  let whole ← integerDigits
  let frac ← partAfter ['.'] fraction
  let exp ← partAfter ['e', 'E'] exponentPart
  pure (minus ++ whole ++ frac ++ exp)

/-! ## Documents -/

def word (w : String) (value : Json) : Parser Json := do
  literal w.toList
  pure value

def closed {α : Type} (left right : Char) (p : Parser α) : Parser (List α) := do
  char left
  let _ ← spaces
  let items ← Parser.optional (sepBy1 (char ',') p)
  char right
  pure (items.getD [])

def member (inner : Parser Json) : Parser (List Nat × Json) := do
  let key ← lexeme stringUnits
  char ':'
  let value ← inner
  pure (key, value)

/-- A document in which arrays and objects nest less deep than the bound. -/
def document : Nat → Parser Json
  | 0 => fail
  | depth + 1 =>
    lexeme <|
      orElse (word "null" .null) <|
      orElse (word "true" (.bool true)) <|
      orElse (word "false" (.bool false)) <|
      orElse (do let digits ← numberDigits; pure (.number digits)) <|
      orElse (do let units ← stringUnits; pure (.string units)) <|
      orElse (do let items ← closed '[' ']' (document depth); pure (.array items))
        (do let members ← closed '\x7b' '\x7d' (member (document depth)); pure (.object members))

def ofText (text : String) : Option Json :=
  match document (text.length + 1) text.toList with
  | .ok (j, []) => some j
  | _ => none

/-! ## Writing -/

def hexDigits4 (n : Nat) : List Char :=
  let digits := Nat.toDigits 16 n
  List.replicate (4 - digits.length) '0' ++ digits

def renderUnit (u : Nat) : List Char :=
  if u = 0x22 then ['\\', '"']
  else if u = 0x5C then ['\\', '\\']
  else if u = 0x08 then ['\\', 'b']
  else if u = 0x0C then ['\\', 'f']
  else if u = 0x0A then ['\\', 'n']
  else if u = 0x0D then ['\\', 'r']
  else if u = 0x09 then ['\\', 't']
  else if u < 0x20 || (0xD800 ≤ u && u < 0xE000) then '\\' :: 'u' :: hexDigits4 u
  else [Char.ofNat u]

def renderString (units : List Nat) : List Char :=
  '"' :: units.flatMap renderUnit ++ ['"']

mutual

def render : Json → List Char
  | null => "null".toList
  | bool b => (if b then "true" else "false").toList
  | number digits => digits
  | string units => renderString units
  | array items => '[' :: renderItems items ++ [']']
  | object members => '\x7b' :: renderMembers members ++ ['\x7d']

def renderItems : List Json → List Char
  | [] => []
  | [j] => j.render
  | j :: k :: rest => j.render ++ ',' :: renderItems (k :: rest)

def renderMembers : List (List Nat × Json) → List Char
  | [] => []
  | [(key, j)] => renderString key ++ ':' :: j.render
  | (key, j) :: m :: rest =>
    renderString key ++ ':' :: j.render ++ ',' :: renderMembers (m :: rest)

end

/-! ## Plain values -/

/-- The characters that the units stand for; a surrogate stands for one only as half of a pair. -/
def decodeUnits : List Nat → Option (List Char)
  | [] => some []
  | u :: rest =>
    if 0xD800 ≤ u && u < 0xDC00 then
      match rest with
      | v :: rest =>
        if 0xDC00 ≤ v && v < 0xE000 then
          (Char.ofNat (0x10000 + (u - 0xD800) * 0x400 + (v - 0xDC00)) :: ·) <$> decodeUnits rest
        else none
      | [] => none
    else if 0xDC00 ≤ u && u < 0xE000 then none
    else (Char.ofNat u :: ·) <$> decodeUnits rest

def toText : Json → Option String
  | string units => String.ofList <$> decodeUnits units
  | _ => none

def ofString (s : String) : Json :=
  string (s.toList.map Char.toNat)

def ofNat (n : Nat) : Json :=
  number (toString n).toList

/-- The value of digits alone: no sign, no fraction, no exponent. -/
def natOfDigits (digits : List Char) : Option Nat :=
  if !digits.isEmpty && digits.all Char.isDigit then
    some (digits.foldl (fun n c => 10 * n + (c.toNat - '0'.toNat)) 0)
  else none

def toNatBelow (bound : Nat) : Json → Option Nat
  | number digits => (natOfDigits digits).filter (· < bound)
  | _ => none

/-- The outer option says whether the document fits; the inner one is the value, with null for its
absence. -/
def toOptionalNatBelow (bound : Nat) : Json → Option (Option Nat)
  | null => some none
  | j => (j.toNatBelow bound).map some

def ofOptionalNat : Option Nat → Json
  | none => null
  | some n => ofNat n

/-! ## Records -/

/-- The values of the members with a key.  Every key has to stand for characters. -/
def valuesOf (name : String) : List (List Nat × Json) → Option (List Json)
  | [] => some []
  | (key, value) :: rest => do
    let chars ← decodeUnits key
    let values ← valuesOf name rest
    pure (if chars = name.toList then value :: values else values)

/-- The value of a field, which may be missing but not repeated. -/
def fieldOf (members : List (List Nat × Json)) (name : String) : Option (Option Json) :=
  match valuesOf name members with
  | some [] => some none
  | some [value] => some (some value)
  | _ => none

/-- The fields in their order.  An object may have other members too, an array no other items. -/
def record (names : List String) : Json → Option (List (Option Json))
  | object members => names.mapM (fieldOf members)
  | array items =>
    if items.length ≤ names.length then
      some (items.map some ++ List.replicate (names.length - items.length) none)
    else none
  | _ => none

end Json

end PathQuery
