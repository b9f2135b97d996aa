import PathQuery.Pattern.Basic

/-!
# The written form of path patterns

* `Pattern.precedence`: alternation binds weakest, then sequence, then everything else;
* `Pattern.render`: the written form, with parentheses only where a part binds weaker than its
  place asks for;
* `Pattern.toText`: the same as a `String`.
-/

namespace PathQuery

namespace TypeTerm

def render (t : TypeTerm) : List Char :=
  if t.forbidden then '^' :: t.name.toList else t.name.toList

end TypeTerm

namespace Pattern

def precedence : Pattern → Nat
  | alt _ => 0
  | seq _ => 1
  | _ => 2

/-- The restriction of an edge step: types, then roles, between braces. -/
def renderRestriction (types : List TypeTerm) (roles : List String) : List Char :=
  match types.map TypeTerm.render ++ roles.map (fun r => '@' :: r.toList) with
  | [] => []
  | items => '\x7b' :: [',', ' '].intercalate items ++ ['\x7d']

def parenthesize (needed : Bool) (written : List Char) : List Char :=
  if needed then '(' :: written ++ [')'] else written

mutual

def render : Pattern → List Char
  | edge direction types roles => direction.arrow.toList ++ renderRestriction types roles
  | seq parts => renderAll [' '] 2 parts
  | alt parts => renderAll [' ', '|', ' '] 1 parts
  | star inner => parenthesize (inner.precedence < 2) inner.render ++ ['*']
  | plus inner => parenthesize (inner.precedence < 2) inner.render ++ ['+']
  | optional inner => parenthesize (inner.precedence < 2) inner.render ++ ['?']
  | power inner n =>
    parenthesize (inner.precedence < 2) inner.render ++ '^' :: (toString n).toList
  | transpose inner => parenthesize (inner.precedence < 2) inner.render ++ ['^', 'T']

/-- The parts with a separator between them; a part below the given precedence is put into
parentheses. -/
def renderAll (separator : List Char) (least : Nat) : List Pattern → List Char
  | [] => []
  | [p] => parenthesize (p.precedence < least) p.render
  | p :: q :: ps =>
    parenthesize (p.precedence < least) p.render ++ separator ++
      renderAll separator least (q :: ps)

end

def toText (p : Pattern) : String :=
  String.ofList p.render

end Pattern

end PathQuery
