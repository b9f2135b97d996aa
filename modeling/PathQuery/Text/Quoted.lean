import PathQuery.Text.Unprinted

/-!
# Quoted text

Messages show names and pieces of input between double quotes.

* `escape`: how one character is written inside the quotes;
* `quote`: a whole text;
* `quoteList`: a list of texts between square brackets.
-/

namespace PathQuery
namespace Text

/-- A character that has neither a short form nor a visible one is written by its code point in
lower-case hexadecimal digits. -/
def escape (c : Char) : List Char :=
  if c = '"' then ['\\', '"']
  else if c = '\\' then ['\\', '\\']
  else if c = '\n' then ['\\', 'n']
  else if c = '\r' then ['\\', 'r']
  else if c = '\t' then ['\\', 't']
  else if c = '\x00' then ['\\', '0']
  else if isUnprinted c then
    ['\\', 'u', '\x7b'] ++ Nat.toDigits 16 c.toNat ++ ['\x7d']
  else [c]

def quote (s : String) : String :=
  String.ofList ('"' :: s.toList.flatMap escape ++ ['"'])

def quoteList (names : List String) : String :=
  "[" ++ String.intercalate ", " (names.map quote) ++ "]"

end Text
end PathQuery
