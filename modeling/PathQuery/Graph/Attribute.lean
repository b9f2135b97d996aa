import PathQuery.Numeric.Binary64
import PathQuery.Graph.Names

/-!
# Attributes

* `AttrValue`: what a vertex or an edge can carry under a name;
* `Attributes`: the values of one element, at most one for each name.
-/

namespace PathQuery

inductive AttrValue where
  | bool (b : Bool)
  | int (i : Int)
  | float (x : Binary64)
  | text (s : String)
  deriving DecidableEq, Repr

structure Attributes where
  entries : List (NameId × AttrValue) := []
  deriving Repr

namespace Attributes

def get (attrs : Attributes) (name : NameId) : Option AttrValue :=
  attrs.entries.lookup name

/-- Replaces the value of the name, or adds one. -/
def set (attrs : Attributes) (name : NameId) (value : AttrValue) : Attributes :=
  ⟨(name, value) :: attrs.entries.filter (·.1 != name)⟩

def setAll (attrs : Attributes) (values : List (NameId × AttrValue)) : Attributes :=
  values.foldl (fun attrs entry => attrs.set entry.1 entry.2) attrs

theorem get_set (attrs : Attributes) (name other : NameId) (value : AttrValue) :
    (attrs.set name value).get other = if other = name then some value else attrs.get other := by
  by_cases h : other = name
  · subst h
    simp [get, set]
  · have hne : (other == name) = false := by simp [h]
    simp only [get, set, List.lookup_cons, hne, h, if_false]
    induction attrs.entries with
    | nil => rfl
    | cons entry rest ih =>
      obtain ⟨key, v⟩ := entry
      by_cases he : key = name
      · subst he
        simp [List.lookup_cons, hne, ih]
      · have hkeep : (key != name) = true := by simp [he]
        simp only [List.filter_cons, hkeep, if_true, List.lookup_cons, ih]

end Attributes

end PathQuery
