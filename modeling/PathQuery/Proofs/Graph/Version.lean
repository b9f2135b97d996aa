import PathQuery.Proofs.Graph.Grown

/-!
# Versions of a graph

The version counts the changes that took place.  A change that fails leaves at most some newly
interned names behind; the changes of elements do not even do that, since the only name that such a
failure is about is the name of a type, and that is interned already.

* `Graph.Change`: the changes of elements and attributes;
* `Change.apply_eq_or_version_lt`: a change that leaves the version leaves the graph;
* `Graph.Later`: a later moment in the history of a graph;
* `Later.grows`: if the version is the same, nothing has happened but that the graph has grown.
-/

namespace PathQuery

namespace Graph

/-! ## Changes -/

/-- What can happen to the elements of a graph. -/
inductive Change where
  | addVertex (typeName : String) (attrs : List (String × AttrValue))
  | addEdge (typeName : String) (alpha omega : Nat) (attrs : List (String × AttrValue))
  | setVertexAttr (v : Nat) (name : String) (value : AttrValue)
  | setEdgeAttr (e : Nat) (name : String) (value : AttrValue)

/-- The graph after the change, which may have failed. -/
def Change.apply (g : Graph) : Change → Graph
  | addVertex typeName attrs => (g.addVertex typeName attrs).2
  | addEdge typeName alpha omega attrs => (g.addEdge typeName alpha omega attrs).2
  | setVertexAttr v name value => (g.setVertexAttr v name value).2
  | setEdgeAttr e name value => (g.setEdgeAttr e name value).2

variable {g : Graph}

theorem Constructed.change (h : g.Constructed) : ∀ change : Change, (change.apply g).Constructed
  | .addVertex typeName attrs => h.addVertex typeName attrs
  | .addEdge typeName alpha omega attrs => h.addEdge typeName alpha omega attrs
  | .setVertexAttr v name value => h.setVertexAttr v name value
  | .setEdgeAttr e name value => h.setEdgeAttr e name value

theorem Grounded.intern_eq_self (hg : g.Grounded) {name : String}
    (hcontains : g.schema.contains (g.intern name).1 = true) : (g.intern name).2 = g := by
  have hlt := hg.lt_of_contains hcontains
  cases hname : g.names.idOf name with
  | some id => rw [Graph.intern, Names.intern_of_mem hname]
  | none =>
    -- A new name is numbered beyond all others.
    rw [Graph.intern, Names.intern_of_new hname] at hlt
    exact absurd hlt (Nat.lt_irrefl _)

theorem addVertex_eq_or_version_lt (hg : g.Grounded) (typeName : String)
    (attrs : List (String × AttrValue)) :
    (g.addVertex typeName attrs).2 = g ∨ g.version < (g.addVertex typeName attrs).2.version := by
  have hversion : (g.prepare typeName false attrs).2.version = g.version :=
    (Grows.prepare .refl typeName false attrs).version_eq
  unfold addVertex
  dsimp only
  split
  · rename_i hedge
    refine .inl (hg.intern_eq_self ?_)
    exact Option.isSome_of_any hedge
  · exact .inr (Nat.lt_succ_of_le (Nat.le_of_eq hversion.symm))

theorem addEdge_eq_or_version_lt (hg : g.Grounded) (typeName : String) (alpha omega : Nat)
    (attrs : List (String × AttrValue)) :
    (g.addEdge typeName alpha omega attrs).2 = g ∨
      g.version < (g.addEdge typeName alpha omega attrs).2.version := by
  have hversion : (g.prepare typeName true attrs).2.version = g.version :=
    (Grows.prepare .refl typeName true attrs).version_eq
  unfold addEdge
  split
  · exact .inl rfl
  · split
    · exact .inl rfl
    · dsimp only
      split
      · rename_i hvertex
        rw [Bool.and_eq_true] at hvertex
        exact .inl (hg.intern_eq_self hvertex.1)
      · exact .inr (Nat.lt_succ_of_le (Nat.le_of_eq hversion.symm))

theorem setVertexAttr_eq_or_version_lt (g : Graph) (v : Nat) (name : String) (value : AttrValue) :
    (g.setVertexAttr v name value).2 = g ∨
      g.version < (g.setVertexAttr v name value).2.version := by
  unfold setVertexAttr
  split
  · exact .inl rfl
  · exact .inr (Nat.lt_succ_self _)

theorem setEdgeAttr_eq_or_version_lt (g : Graph) (e : Nat) (name : String) (value : AttrValue) :
    (g.setEdgeAttr e name value).2 = g ∨ g.version < (g.setEdgeAttr e name value).2.version := by
  unfold setEdgeAttr
  split
  · exact .inl rfl
  · exact .inr (Nat.lt_succ_self _)

theorem Change.apply_eq_or_version_lt (h : g.Constructed) : ∀ change : Change,
    change.apply g = g ∨ g.version < (change.apply g).version
  | .addVertex typeName attrs => addVertex_eq_or_version_lt h.grounded typeName attrs
  | .addEdge typeName alpha omega attrs =>
    addEdge_eq_or_version_lt h.grounded typeName alpha omega attrs
  | .setVertexAttr v name value => setVertexAttr_eq_or_version_lt g v name value
  | .setEdgeAttr e name value => setEdgeAttr_eq_or_version_lt g e name value

/-! ## Histories -/

/-- What becomes of a graph.  An operation that fails counts with whatever it left behind. -/
inductive Later (g : Graph) : Graph → Prop where
  | refl : Later g g
  | intern {h : Graph} (name : String) : Later g h → Later g (h.intern name).2
  | declareVertexType {h : Graph} (name : String) (supertypes : List String) :
      Later g h → Later g (h.declareVertexType name supertypes).2
  | declareEdgeType {h : Graph} (name : String) (supertypes : List String)
      (alphaRole omegaRole : Option String) :
      Later g h → Later g (h.declareEdgeType name supertypes alphaRole omegaRole).2
  | change {h : Graph} (change : Change) : Later g h → Later g (change.apply h)

variable {h : Graph}

namespace Later

theorem constructed (hgh : g.Later h) (hg : g.Constructed) : h.Constructed := by
  induction hgh with
  | refl => exact hg
  | intern name _ ih => exact ih.intern name
  | declareVertexType name supertypes _ ih => exact ih.declareVertexType name supertypes
  | declareEdgeType name supertypes alphaRole omegaRole _ ih =>
    exact ih.declareEdgeType name supertypes alphaRole omegaRole
  | change change _ ih => exact ih.change change

theorem grows_or_version_lt (hgh : g.Later h) (hg : g.Constructed) :
    g.Grows h ∨ g.version < h.version := by
  -- What lets the graph grow leaves the version as it is.
  have hstep : ∀ {h k : Graph}, g.Grows h ∨ g.version < h.version → h.Grows k →
      g.Grows k ∨ g.version < k.version := by
    intro h k hgh hhk
    rcases hgh with hgrows | hlt
    · exact .inl (hgrows.trans hhk)
    · exact .inr (hhk.version_eq.symm ▸ hlt)
  induction hgh with
  | refl => exact .inl .refl
  | intern name _ ih => exact hstep ih (.intern name .refl)
  | declareVertexType name supertypes _ ih =>
    exact hstep ih (.declareVertexType .refl name supertypes)
  | declareEdgeType name supertypes alphaRole omegaRole _ ih =>
    exact hstep ih (.declareEdgeType .refl name supertypes alphaRole omegaRole)
  | @change h change hlater ih =>
    rcases change.apply_eq_or_version_lt (hlater.constructed hg) with heq | hlt
    · rw [heq]
      exact ih
    · rcases ih with hgrows | hlt'
      · exact .inr (hgrows.version_eq ▸ hlt)
      · exact .inr (Nat.lt_trans hlt' hlt)

/-- If the version is the same, names and types are all that can be new. -/
theorem grows (hgh : g.Later h) (hg : g.Constructed) (hversion : h.version = g.version) :
    g.Grows h := by
  rcases hgh.grows_or_version_lt hg with hgrows | hlt
  · exact hgrows
  · exact absurd hversion (Nat.ne_of_gt hlt)

end Later

end Graph

end PathQuery
