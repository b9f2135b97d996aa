/-!
# Interned names

Types, roles and attributes are named by texts.  A name that is met for the first time is given the
next number; from then on the number stands for it.

* `Names.intern`: the number of a name, given out if need be;
* `Names.idOf`, `Names.lookup`: from names to numbers and back, without giving any out.
-/

namespace PathQuery

/-- The number of an interned name. -/
abbrev NameId := Nat

/-- The interned names; a name's number is its place. -/
structure Names where
  toList : List String := []
  deriving Repr

namespace Names

def size (names : Names) : Nat :=
  names.toList.length

def idOf (names : Names) (name : String) : Option NameId :=
  names.toList.idxOf? name

def lookup (names : Names) (id : NameId) : Option String :=
  names.toList[id]?

def intern (names : Names) (name : String) : NameId × Names :=
  match names.idOf name with
  | some id => (id, names)
  | none => (names.size, ⟨names.toList ++ [name]⟩)

/-- Interns from left to right. -/
def internAll (names : Names) : List String → List NameId × Names
  | [] => ([], names)
  | s :: ss =>
    let (id, names) := names.intern s
    let (ids, names) := names.internAll ss
    (id :: ids, names)

end Names

end PathQuery
