import PathQuery.Text.Parser
import PathQuery.Text.Quoted
import PathQuery.Pattern.Printer

/-!
# Reading path patterns

The written form, with optional spaces around every token:

* `alternation`: sequences separated by bars;
* `sequence`: one or more postfixed atoms;
* `atom`: an alternation in parentheses, or an edge step with an optional restriction in braces;
* `postfixOp`: one of star, plus, question mark, transposition and exponent.

`path` ties the knot: its first argument bounds how deep parentheses may nest.  `ofText` reads a
whole text with a bound that no text of its length can exceed.
-/

namespace PathQuery

/-- Why a text is no path pattern. -/
inductive PatternError where
  /-- Nothing but blank characters. -/
  | empty
  /-- Nothing can be read at the offset, counted in bytes of UTF-8. -/
  | unexpected (offset : Nat) (found : List Char)
  deriving DecidableEq, Repr

namespace PatternError

/-- The message shows the first twelve characters of what was found. -/
def message : PatternError → String
  | empty => "empty path description"
  | unexpected offset found =>
    s!"parse error at offset {offset}: unexpected input near "
      ++ Text.quote (String.ofList (found.take 12))

end PatternError

namespace Pattern

open PathQuery.Parser

def isNameStart (c : Char) : Bool :=
  c.isAlpha || c == '_'

def isNameChar (c : Char) : Bool :=
  c.isAlphanum || c == '_'

def isTypeNameChar (c : Char) : Bool :=
  isNameChar c || c == '.'

/-- A name: a first character of its class, then as many as follow. -/
def name (rest : Char → Bool) : Parser String := do
  let first ← takeWhile1 isNameStart
  let others ← takeWhile rest
  pure (String.ofList (first ++ others))

inductive RestrictionItem where
  | type (term : TypeTerm)
  | role (name : String)

def restrictionItem : Parser RestrictionItem :=
  orElse
    (do char '@'; let role ← name isNameChar; pure (.role role))
    (orElse
      (do char '^'; let type ← name isTypeNameChar; pure (.type ⟨type, true⟩))
      (do let type ← name isTypeNameChar; pure (.type ⟨type, false⟩)))

def restriction : Parser (List RestrictionItem) := do
  lexeme (char '\x7b')
  let items ← sepBy1 (lexeme (char ',')) (lexeme restrictionItem)
  char '\x7d'
  pure items

def arrow : Parser Direction :=
  orElse (do literal ['-', '-', '>']; pure .outgoing)
    (orElse (do literal ['<', '-', '>']; pure .any)
      (do literal ['<', '-', '-']; pure .incoming))

def typesOf (items : List RestrictionItem) : List TypeTerm :=
  items.filterMap fun
    | .type term => some term
    | .role _ => none

def rolesOf (items : List RestrictionItem) : List String :=
  items.filterMap fun
    | .type _ => none
    | .role role => some role

def edgeStep : Parser Pattern := do
  let direction ← arrow
  let items ← Parser.optional restriction
  let items := items.getD []
  pure (edge direction (typesOf items) (rolesOf items))

def decimal (digits : List Char) : Nat :=
  digits.foldl (fun n c => 10 * n + (c.toNat - '0'.toNat)) 0

/-- Digits whose value is too large are no exponent. -/
def exponent : Parser Nat :=
  fun s =>
    match takeWhile1 Char.isDigit s with
    | .ok (digits, rest) =>
      if decimal digits ≤ maxExponent then .ok (decimal digits, rest) else .error s
    | .error at_ => .error at_

/-- An operator written after its operand, as the function it applies. -/
def postfixOp : Parser (Pattern → Pattern) :=
  orElse (do char '*'; pure star)
    (orElse (do char '+'; pure plus)
      (orElse (do char '?'; pure Pattern.optional)
        (do
          char '^'
          orElse (do char 'T'; pure transpose)
            (do let n ← exponent; pure (power · n)))))

def atom (inner : Parser Pattern) : Parser Pattern :=
  orElse
    (do
      lexeme (char '(')
      let p ← inner
      lexeme (char ')')
      pure p)
    edgeStep

def postfixed (inner : Parser Pattern) : Parser Pattern := do
  let operand ← atom inner
  let ops ← many postfixOp
  pure (ops.foldl (fun p op => op p) operand)

/-- Sequences directly inside are spliced in; a single part stands for itself. -/
def seqOf (parts : List Pattern) : Pattern :=
  match parts.flatMap fun | seq inner => inner | p => [p] with
  | [p] => p
  | flat => seq flat

/-- Alternations directly inside are spliced in; a single part stands for itself. -/
def altOf (parts : List Pattern) : Pattern :=
  match parts.flatMap fun | alt inner => inner | p => [p] with
  | [p] => p
  | flat => alt flat

def sequence (inner : Parser Pattern) : Parser Pattern := do
  let parts ← many1 (lexeme (postfixed inner))
  pure (seqOf parts)

def alternation (inner : Parser Pattern) : Parser Pattern := do
  let parts ← sepBy1 (lexeme (char '|')) (sequence inner)
  pure (altOf parts)

/-- An alternation in which parentheses nest less deep than the bound. -/
def path : Nat → Parser Pattern
  | 0 => fail
  | depth + 1 => alternation (path depth)

def utf8Length (cs : List Char) : Nat :=
  cs.foldr (fun c n => c.utf8Size + n) 0

/-- The pattern that the characters write, or why there is none. -/
def ofChars (cs : List Char) : Except PatternError Pattern :=
  let unexpected (rest : List Char) : PatternError :=
    .unexpected (utf8Length cs - utf8Length rest) rest
  if cs.all Text.isBlank then
    .error .empty
  else
    match lexeme (path (cs.length + 1)) cs with
    | .ok (p, []) => .ok p
    | .ok (_, rest) => .error (unexpected rest)
    | .error rest => .error (unexpected rest)

def ofText (text : String) : Except PatternError Pattern :=
  ofChars text.toList

/-- Whether the written form of the pattern is read as the same pattern. -/
def roundTrips (p : Pattern) : Bool :=
  match ofText p.toText with
  | .ok q => q = p
  | .error _ => false

end Pattern

end PathQuery
