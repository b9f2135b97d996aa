import PathQuery.Text.Blank

/-!
# Parsers over characters

A parser reads from the front of a list of characters.  It answers a value with the rest, or, when
it fails, the rest at which it failed; the place of a failure is what a message reports.

* `char`, `literal`, `takeWhile`, `nonEmpty`: the leaves;
* `orElse`: the second parser's failure counts when both fail;
* `optional`, `many`, `many1`, `sepBy1`: repetition takes as much as it can and gives nothing back,
  and a round that fails leaves no trace;
* `lexeme`: spaces on both sides.
-/

namespace PathQuery

def Parser (α : Type) : Type :=
  List Char → Except (List Char) (α × List Char)

namespace Parser

instance : Monad Parser where
  pure a := fun s => .ok (a, s)
  bind p f := fun s =>
    match p s with
    | .ok (a, rest) => f a rest
    | .error at_ => .error at_

/-- Fails here. -/
def fail {α : Type} : Parser α :=
  fun s => .error s

def char (c : Char) : Parser Unit
  | d :: rest => if d = c then .ok ((), rest) else .error (d :: rest)
  | [] => .error []

def literal (cs : List Char) : Parser Unit :=
  fun s => if cs.isPrefixOf s then .ok ((), s.drop cs.length) else .error s

def takeWhile (p : Char → Bool) : Parser (List Char) :=
  fun s => .ok (s.takeWhile p, s.dropWhile p)

/-- One or more characters of a class. -/
def takeWhile1 (p : Char → Bool) : Parser (List Char) :=
  fun s =>
    match s.takeWhile p with
    | [] => .error s
    | taken => .ok (taken, s.dropWhile p)

def orElse {α : Type} (p q : Parser α) : Parser α :=
  fun s =>
    match p s with
    | .ok r => .ok r
    | .error _ => q s

def optional {α : Type} (p : Parser α) : Parser (Option α) :=
  fun s =>
    match p s with
    | .ok (a, rest) => .ok (some a, rest)
    | .error _ => .ok (none, s)

/-- The values of as many rounds as succeed, with what the last of them left.  A round that takes
no character ends the repetition. -/
def rounds {α : Type} (p : Parser α) (s : List Char) : List α × List Char :=
  match p s with
  | .error _ => ([], s)
  | .ok (a, rest) =>
    if rest.length < s.length then
      let (as, last) := rounds p rest
      (a :: as, last)
    else ([], s)
termination_by s.length

def many {α : Type} (p : Parser α) : Parser (List α) :=
  fun s => .ok (rounds p s)

def many1 {α : Type} (p : Parser α) : Parser (List α) := do
  let first ← p
  let others ← many p
  pure (first :: others)

def sepBy1 {α : Type} (separator : Parser Unit) (p : Parser α) : Parser (List α) := do
  let first ← p
  let others ← many (do separator; p)
  pure (first :: others)

def spaces : Parser (List Char) :=
  takeWhile Text.isSpace

def lexeme {α : Type} (p : Parser α) : Parser α := do
  let _ ← spaces
  let a ← p
  let _ ← spaces
  pure a

end Parser

end PathQuery
