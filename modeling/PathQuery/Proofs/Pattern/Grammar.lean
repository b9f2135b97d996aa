import PathQuery.Proofs.Pattern.Normal
import PathQuery.Proofs.Text.Parser

/-!
# The grammar of written patterns

`W` stands for a run of spaces.

* `Grammar.Item`, `Grammar.Items`: `item = '@' name | '^'? name`, and the items of a restriction,
  `W item W (',' W item W)*`;
* `Grammar.Operator`: `'*' | '+' | '?' | '^T' | '^' digits` with a value that is not too large;
* `Grammar.Atom`: `'(' W alternation W ')' W | arrow | arrow W '\x7b' items '\x7d'`;
* `Grammar.Postfixed`: `atom operator*`;
* `Grammar.Sequence`: `W postfixed (W postfixed)* W`;
* `Grammar.Alternation`: `sequence (W '|' W sequence)*`;
* `Grammar.Written`: `W alternation W`.

Every rule comes with the tree of its derivation, in which each sequence and each alternation that
is derived stands as it was derived, also with a single part.
-/

namespace PathQuery
namespace Pattern

open PathQuery.Parser

namespace Grammar

/-- One character that may begin a name, and any number of a class. -/
def IsName (rest : Char → Bool) (cs : List Char) : Prop :=
  ∃ c ds, cs = c :: ds ∧ isNameStart c = true ∧ ∀ d ∈ ds, rest d = true

inductive Item : List Char → RestrictionItem → Prop
  | role {cs : List Char} (h : IsName isNameChar cs) :
    Item ('@' :: cs) (.role (String.ofList cs))
  | forbidden {cs : List Char} (h : IsName isTypeNameChar cs) :
    Item ('^' :: cs) (.type ⟨String.ofList cs, true⟩)
  | allowed {cs : List Char} (h : IsName isTypeNameChar cs) :
    Item cs (.type ⟨String.ofList cs, false⟩)

inductive Items : List Char → List RestrictionItem → Prop
  | one {cs : List Char} {i : RestrictionItem} (first : Spaced Item cs i) : Items cs [i]
  | more {cs ds : List Char} {i : RestrictionItem} {is : List RestrictionItem}
      (first : Spaced Item cs i) (others : Items ds is) : Items (cs ++ ',' :: ds) (i :: is)

/-- An operator stands for what it makes of the pattern before it. -/
inductive Operator : List Char → (Pattern → Pattern) → Prop
  | star : Operator ['*'] star
  | plus : Operator ['+'] plus
  | optional : Operator ['?'] Pattern.optional
  | transpose : Operator ['^', 'T'] transpose
  | power {digits : List Char} (hsome : digits ≠ []) (hdigits : ∀ c ∈ digits, c.isDigit = true)
      (hsmall : decimal digits ≤ maxExponent) :
    Operator ('^' :: digits) (power · (decimal digits))

mutual

inductive Atom : List Char → Pattern → Prop
  | arrow (direction : Direction) : Atom direction.arrow.toList (edge direction [] [])
  | restricted (direction : Direction) {w cs : List Char} {is : List RestrictionItem}
      (hw : Spaces w) (items : Items cs is) :
    Atom (direction.arrow.toList ++ w ++ '\x7b' :: cs ++ ['\x7d'])
      (edge direction (typesOf is) (rolesOf is))
  | group {v w x cs : List Char} {p : Pattern} (hv : Spaces v) (inner : Alternation cs p)
      (hw : Spaces w) (hx : Spaces x) : Atom ('(' :: v ++ cs ++ w ++ ')' :: x) p

inductive Postfixed : List Char → Pattern → Prop
  | intro {cs ds : List Char} {p : Pattern} {ops : List (Pattern → Pattern)} (operand : Atom cs p)
      (operators : Repeated Operator ds ops) :
    Postfixed (cs ++ ds) (ops.foldl (fun p op => op p) p)

inductive Sequence : List Char → Pattern → Prop
  | one {v w cs : List Char} {p : Pattern} (hv : Spaces v) (first : Postfixed cs p)
      (hw : Spaces w) : Sequence (v ++ cs ++ w) (seq [p])
  | more {v cs ds : List Char} {p : Pattern} {ps : List Pattern} (hv : Spaces v)
      (first : Postfixed cs p) (others : Sequence ds (seq ps)) :
    Sequence (v ++ cs ++ ds) (seq (p :: ps))

inductive Alternation : List Char → Pattern → Prop
  | one {cs : List Char} {p : Pattern} (first : Sequence cs p) : Alternation cs (alt [p])
  | more {v w cs ds : List Char} {p : Pattern} {ps : List Pattern} (first : Sequence cs p)
      (hv : Spaces v) (hw : Spaces w) (others : Alternation ds (alt ps)) :
    Alternation (cs ++ v ++ '|' :: w ++ ds) (alt (p :: ps))

end

/-- The tree is derived for the whole text. -/
def Written : List Char → Pattern → Prop :=
  Spaced Alternation

end Grammar

end Pattern
end PathQuery
