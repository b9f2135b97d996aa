import PathQuery.Graph.Incidence

/-!
# Path patterns

A path pattern is a regular expression over edge steps.

* `TypeTerm`: an edge type that a step asks for or rules out;
* `Pattern`: steps joined by sequence, alternation, iteration, bounded power and transposition;
* `Pattern.edgeCount`: how many steps are written in it.
-/

namespace PathQuery

/-- A type named in a restriction.  A forbidden type rules out the edges that have it. -/
structure TypeTerm where
  name : String
  forbidden : Bool
  deriving DecidableEq, Repr

/-- The term that a text names: a leading caret forbids the type with the rest of the name. -/
def TypeTerm.ofText (s : String) : TypeTerm :=
  match s.toList with
  | '^' :: rest => ⟨String.ofList rest, true⟩
  | _ => ⟨s, false⟩

inductive Pattern where
  /-- One edge, restricted by the types it may have and the roles of the vertex it arrives at. -/
  | edge (direction : Direction) (types : List TypeTerm) (roles : List String)
  | seq (parts : List Pattern)
  | alt (parts : List Pattern)
  | star (inner : Pattern)
  | plus (inner : Pattern)
  | optional (inner : Pattern)
  | power (inner : Pattern) (exponent : Nat)
  | transpose (inner : Pattern)
  deriving Repr

namespace Pattern

/-- The largest exponent that may be written: every unit of it is one copy of the inner pattern's
automaton. -/
def maxExponent : Nat := 64

/-! ## Equality -/

mutual

def same : Pattern → Pattern → Bool
  | edge d ts rs, edge d' ts' rs' => d = d' && ts = ts' && rs = rs'
  | seq ps, seq qs => sameAll ps qs
  | alt ps, alt qs => sameAll ps qs
  | star p, star q => same p q
  | plus p, plus q => same p q
  | optional p, optional q => same p q
  | power p n, power q m => same p q && n = m
  | transpose p, transpose q => same p q
  | _, _ => false

def sameAll : List Pattern → List Pattern → Bool
  | [], [] => true
  | p :: ps, q :: qs => same p q && sameAll ps qs
  | _, _ => false

end

mutual

theorem same_iff : ∀ p q : Pattern, same p q = true ↔ p = q
  | edge d ts rs, q => by cases q <;> simp [same, and_assoc]
  | seq ps, q => by cases q <;> simp [same, sameAll_iff ps]
  | alt ps, q => by cases q <;> simp [same, sameAll_iff ps]
  | star p, q => by cases q <;> simp [same, same_iff p]
  | plus p, q => by cases q <;> simp [same, same_iff p]
  | optional p, q => by cases q <;> simp [same, same_iff p]
  | power p n, q => by cases q <;> simp [same, same_iff p]
  | transpose p, q => by cases q <;> simp [same, same_iff p]

theorem sameAll_iff : ∀ ps qs : List Pattern, sameAll ps qs = true ↔ ps = qs
  | [], qs => by cases qs <;> simp [sameAll]
  | p :: ps, qs => by cases qs <;> simp [sameAll, same_iff p, sameAll_iff ps]

end

instance : DecidableEq Pattern :=
  fun p q => decidable_of_iff _ (same_iff p q)

/-! ## Size -/

mutual

def edgeCount : Pattern → Nat
  | edge _ _ _ => 1
  | seq parts => edgeCountAll parts
  | alt parts => edgeCountAll parts
  | star inner => inner.edgeCount
  | plus inner => inner.edgeCount
  | optional inner => inner.edgeCount
  | power inner _ => inner.edgeCount
  | transpose inner => inner.edgeCount

def edgeCountAll : List Pattern → Nat
  | [] => 0
  | p :: ps => p.edgeCount + edgeCountAll ps

end

end Pattern

end PathQuery
