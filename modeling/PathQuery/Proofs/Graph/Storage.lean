import PathQuery.Proofs.Graph.TypeIndex

/-!
# What a graph keeps

A graph keeps the same facts in several places: the ends of edges and the lists of the vertices,
columns of types and indexes, names and numbers.  Here it is compared with a plain record of the
changes that took place.

* `Graph.Operation`: all that a graph can be asked to do, and `Graph.History`: what it comes to,
  with a record of the changes that did not fail;
* `addedVertices`, `addedEdges`, `lastWrite`: what can be read off the record;
* `Recorded`: the columns, the attributes and the version of a graph are those of the record;
* `History.Consistent`: all that this says about the answers of a graph;
* `run_consistent`: it holds after every sequence of operations.
-/

namespace PathQuery

namespace Names

variable {names names' : Names} {name other : String} {id : NameId}

theorem idOf_of_prefix (h : names.toList <+: names'.toList) (hid : names.idOf name = some id) :
    names'.idOf name = some id :=
  (idOf_eq_some_iff h (idOf_lt hid)).2 hid

theorem eq_of_idOf (h : names.idOf name = some id) (h' : names.idOf other = some id) :
    name = other := by
  rw [idOf, List.idxOf?_eq_some_iff] at h h'
  rcases h with ⟨_, hname, _⟩
  rcases h' with ⟨_, hother, _⟩
  exact hname.symm.trans hother

theorem idOf_intern (names : Names) (name : String) :
    (names.intern name).2.idOf name = some (names.intern name).1 := by
  cases h : names.idOf name with
  | some id =>
    rw [intern_of_mem h]
    exact h
  | none =>
    have hnew : name ∉ names.toList := by
      rw [idOf, List.idxOf?_eq_none_iff] at h
      exact h
    rw [intern_of_new h, idOf, List.idxOf?_eq_some_iff]
    refine ⟨by simp [size], by simp [size], ?_⟩
    intro j hj
    rw [List.getElem_append_left hj]
    exact fun heq => hnew (heq ▸ List.getElem_mem hj)

theorem idOf_internAll (names : Names) (ss : List String) :
    (names.internAll ss).1.map some = ss.map (names.internAll ss).2.idOf := by
  induction ss generalizing names with
  | nil => rfl
  | cons s ss ih =>
    have hfirst := idOf_of_prefix (prefix_internAll (names.intern s).2 ss) (names.idOf_intern s)
    exact List.cons_eq_cons.2 ⟨hfirst.symm, ih (names.intern s).2⟩

/-- The values stand under the numbers of the names. -/
def Numbers (names : Names) (written : List (String × AttrValue))
    (values : List (NameId × AttrValue)) : Prop :=
  values.map (fun entry => (some entry.1, entry.2)) =
    written.map fun entry => (names.idOf entry.1, entry.2)

theorem Numbers.reverse {written : List (String × AttrValue)} {values : List (NameId × AttrValue)}
    (h : names.Numbers written values) : names.Numbers written.reverse values.reverse := by
  rw [Numbers, List.map_reverse, List.map_reverse, h]

/-- Different names have different numbers, so a value is found under the number of its name. -/
theorem Numbers.lookup_eq {written : List (String × AttrValue)}
    {values : List (NameId × AttrValue)} (hkeys : names.Numbers written values) (name : String) :
    written.lookup name = (names.idOf name).bind fun key => values.lookup key := by
  induction written generalizing values with
  | nil =>
    rw [Numbers, List.map_nil, List.map_eq_nil_iff] at hkeys
    rw [hkeys]
    cases names.idOf name <;> rfl
  | cons entry written ih =>
    rcases values with _ | ⟨⟨key, value⟩, values⟩
    · cases hkeys
    · rcases entry with ⟨first, value'⟩
      simp only [Numbers, List.map_cons, List.cons_eq_cons, Prod.mk.injEq] at hkeys
      rcases hkeys with ⟨⟨hkey, rfl⟩, hkeys⟩
      by_cases hname : name = first
      · subst hname
        simp [← hkey]
      · -- Another name has another number.
        rw [List.lookup_cons, beq_eq_false_iff_ne.2 hname, ih hkeys]
        refine Option.bind_congr fun key' hkey' => ?_
        have hne : key' ≠ key := fun heq => hname (eq_of_idOf (heq ▸ hkey') hkey.symm)
        rw [List.lookup_cons, beq_eq_false_iff_ne.2 hne]

end Names

theorem Attributes.get_setAll (attributes : Attributes) (values : List (NameId × AttrValue))
    (key : NameId) : (attributes.setAll values).get key =
      (values.reverse.lookup key).or (attributes.get key) := by
  induction values generalizing attributes with
  | nil => rfl
  | cons entry values ih =>
    have hset : attributes.setAll (entry :: values) =
        (attributes.set entry.1 entry.2).setAll values := rfl
    rw [hset, ih, get_set, List.reverse_cons, List.lookup_append, Option.or_assoc]
    rcases entry with ⟨first, value⟩
    by_cases hkey : key = first
    · simp [hkey]
    · simp [hkey, List.lookup_cons, beq_eq_false_iff_ne.2 hkey]

namespace Graph

/-! ## Operations and what they leave -/

/-- What is answered is the number of the element. -/
def Change.perform (g : Graph) : Change → Except GraphError Nat × Graph
  | addVertex typeName attrs => g.addVertex typeName attrs
  | addEdge typeName alpha omega attrs => g.addEdge typeName alpha omega attrs
  | setVertexAttr v name value =>
    ((g.setVertexAttr v name value).1.map fun _ => v, (g.setVertexAttr v name value).2)
  | setEdgeAttr e name value =>
    ((g.setEdgeAttr e name value).1.map fun _ => e, (g.setEdgeAttr e name value).2)

inductive Operation where
  | intern (name : String)
  | declareVertexType (name : String) (supertypes : List String)
  | declareEdgeType (name : String) (supertypes : List String) (alphaRole omegaRole : Option String)
  | change (made : Change)

/-- What is answered is the number of the name or of the element. -/
def Operation.perform (g : Graph) : Operation → Except GraphError Nat × Graph
  | intern name => (.ok (g.intern name).1, (g.intern name).2)
  | declareVertexType name supertypes => g.declareVertexType name supertypes
  | declareEdgeType name supertypes alphaRole omegaRole =>
    g.declareEdgeType name supertypes alphaRole omegaRole
  | change made => made.perform g

/-- A change that took place, with the number of its element. -/
structure Record where
  change : Change
  id : Nat

namespace Record

def element (r : Record) : Element :=
  match r.change with
  | .addVertex _ _ => .vertex r.id
  | .addEdge _ _ _ _ => .edge r.id
  | .setVertexAttr _ _ _ => .vertex r.id
  | .setEdgeAttr _ _ _ => .edge r.id

/-- The attributes that were written, one after the other. -/
def written (r : Record) : List (String × AttrValue) :=
  match r.change with
  | .addVertex _ attrs => attrs
  | .addEdge _ _ _ attrs => attrs
  | .setVertexAttr _ name value => [(name, value)]
  | .setEdgeAttr _ name value => [(name, value)]

/-- The type of the vertex that was added. -/
def vertex? (r : Record) : Option String :=
  match r.change with
  | .addVertex typeName _ => some typeName
  | _ => none

/-- The type, the alpha and the omega of the edge that was added. -/
def edge? (r : Record) : Option (String × Nat × Nat) :=
  match r.change with
  | .addEdge typeName alpha omega _ => some (typeName, alpha, omega)
  | _ => none

end Record

section Records

variable (records : List Record)

/-- The types of all vertices in the order in which they were added; of the records the latest is
the first. -/
def addedVertices : List String :=
  records.reverse.filterMap Record.vertex?

def addedEdges : List (String × Nat × Nat) :=
  records.reverse.filterMap Record.edge?

/-- The last value that was written to the element under the name. -/
def lastWrite (x : Element) (name : String) : Option AttrValue :=
  records.findSome? fun r => if r.element = x then r.written.reverse.lookup name else none

end Records

theorem addedVertices_cons (r : Record) (records : List Record) :
    addedVertices (r :: records) = addedVertices records ++ r.vertex?.toList := by
  rw [addedVertices, List.reverse_cons, List.filterMap_append]
  cases h : r.vertex? with
  | none => rw [List.filterMap_cons_none h]; rfl
  | some name => rw [List.filterMap_cons_some h]; rfl

theorem addedEdges_cons (r : Record) (records : List Record) :
    addedEdges (r :: records) = addedEdges records ++ r.edge?.toList := by
  rw [addedEdges, List.reverse_cons, List.filterMap_append]
  cases h : r.edge? with
  | none => rw [List.filterMap_cons_none h]; rfl
  | some row => rw [List.filterMap_cons_some h]; rfl

theorem lastWrite_cons (r : Record) (records : List Record) (x : Element) (name : String) :
    lastWrite (r :: records) x name =
      (if r.element = x then r.written.reverse.lookup name else none).or
        (lastWrite records x name) := by
  rw [lastWrite, List.findSome?_cons]
  split
  · rename_i value hvalue
    rw [hvalue]
    rfl
  · rename_i hnone
    rw [hnone]
    rfl

/-- A failed operation and one that changes no element leave no record. -/
def Operation.records : Operation → Except GraphError Nat → List Record
  | change made, .ok id => [⟨made, id⟩]
  | _, _ => []

structure History where
  graph : Graph := .empty
  /-- The changes that took place, the latest first. -/
  records : List Record := []

namespace History

def perform (history : History) (op : Operation) : History where
  graph := (op.perform history.graph).2
  records := op.records (op.perform history.graph).1 ++ history.records

/-- Operations that fail are part of the sequence. -/
def run (ops : List Operation) : History :=
  ops.foldl perform {}

end History

/-! ## Failures -/

/-- Nothing but interned names is new. -/
def Interned (g h : Graph) : Prop :=
  ∃ names : Names, g.names.toList <+: names.toList ∧ h = { g with names }

variable {g h : Graph}

namespace Interned

theorem refl (g : Graph) : g.Interned g :=
  ⟨g.names, List.prefix_refl _, rfl⟩

theorem intern (hgh : g.Interned h) (name : String) : g.Interned (h.intern name).2 := by
  rcases hgh with ⟨names, hprefix, rfl⟩
  exact ⟨(names.intern name).2, hprefix.trans (names.prefix_intern name), rfl⟩

theorem internOption (hgh : g.Interned h) : ∀ name, g.Interned (h.internOption name).2
  | none => hgh
  | some name => hgh.intern name

end Interned

theorem interned_of_declareVertexType {name : String} {supertypes : List String}
    {reason : GraphError} (h : (g.declareVertexType name supertypes).1 = .error reason) :
    g.Interned (g.declareVertexType name supertypes).2 := by
  have hname := (Interned.refl g).intern name
  unfold declareVertexType at h ⊢
  dsimp only at h ⊢
  split
  · exact hname
  · split
    · exact hname
    · rename_i hsups _ _ hschema
      rw [hsups] at h
      dsimp only at h
      rw [hschema] at h
      cases h

theorem interned_of_declareEdgeType {name : String} {supertypes : List String}
    {alphaRole omegaRole : Option String} {reason : GraphError}
    (h : (g.declareEdgeType name supertypes alphaRole omegaRole).1 = .error reason) :
    g.Interned (g.declareEdgeType name supertypes alphaRole omegaRole).2 := by
  have hname := (Interned.refl g).intern name
  unfold declareEdgeType at h ⊢
  dsimp only at h ⊢
  split
  · exact hname
  · split
    · exact (hname.internOption alphaRole).internOption omegaRole
    · rename_i hsups _ _ hschema
      rw [hsups] at h
      dsimp only at h
      rw [hschema] at h
      cases h

theorem Change.interned_of_error {change : Change} {reason : GraphError}
    (h : (change.perform g).1 = .error reason) : g.Interned (change.perform g).2 := by
  have hname := fun name => (Interned.refl g).intern name
  cases change with
  | addVertex typeName attrs =>
    rw [perform] at h ⊢
    rcases addVertex_cases_eq g typeName attrs with ⟨_, heq⟩ | heq
    · rw [heq]
      exact hname typeName
    · rw [heq] at h
      cases h
  | addEdge typeName alpha omega attrs =>
    rw [perform] at h ⊢
    rcases addEdge_cases_eq g typeName alpha omega attrs with ⟨_, heq⟩ | ⟨_, heq⟩ | ⟨_, _, heq⟩
    · rw [heq]
      exact .refl g
    · rw [heq]
      exact hname typeName
    · rw [heq] at h
      cases h
  | setVertexAttr v name value =>
    rw [perform] at h ⊢
    rcases setVertexAttr_cases_eq g v name value with ⟨_, heq⟩ | ⟨_, heq⟩
    · rw [heq]
      exact .refl g
    · rw [heq] at h
      cases h
  | setEdgeAttr e name value =>
    rw [perform] at h ⊢
    rcases setEdgeAttr_cases_eq g e name value with ⟨_, heq⟩ | ⟨_, heq⟩
    · rw [heq]
      exact .refl g
    · rw [heq] at h
      cases h

theorem Operation.interned_of_error {op : Operation} {reason : GraphError}
    (h : (op.perform g).1 = .error reason) : g.Interned (op.perform g).2 := by
  cases op with
  | intern name => cases h
  | declareVertexType name supertypes => exact interned_of_declareVertexType h
  | declareEdgeType name supertypes alphaRole omegaRole => exact interned_of_declareEdgeType h
  | change made => exact Change.interned_of_error h

/-! ## The record is kept -/

structure Recorded (g : Graph) (records : List Record) : Prop where
  vertices : g.vertexRows.map some = (addedVertices records).map g.names.idOf
  edges : g.edgeRows.map (fun row => (some row.1, row.2)) =
    (addedEdges records).map fun row => (g.names.idOf row.1, row.2)
  attr_eq (x : Element) (name : String) : g.attr x name = lastWrite records x name
  version_eq : g.version = records.length

namespace Recorded

variable {records : List Record}

theorem of_empty : Recorded empty [] := by
  refine ⟨rfl, rfl, ?_, rfl⟩
  rintro (v | e) name
  · rfl
  · rfl

theorem grows (hr : g.Recorded records) (hg : g.Grounded) (hgh : g.Grows h) :
    h.Recorded records where
  vertices := by
    have hrows : h.vertexRows = g.vertexRows := by
      rw [vertexRows, hgh.sameData.vertexData, vertexRows]
    rw [hrows, hr.vertices]
    refine List.map_congr_left fun typeName hmem => ?_
    -- The types of elements are known, so their names keep their numbers.
    have hid : g.names.idOf typeName ∈ g.vertexRows.map some :=
      hr.vertices ▸ List.mem_map_of_mem hmem
    rcases List.mem_map.1 hid with ⟨id, _, hid⟩
    rw [Names.idOf_of_prefix hgh.names_prefix hid.symm, hid]
  edges := by
    have hrows : h.edgeRows = g.edgeRows := by
      rw [edgeRows, hgh.sameData.edgeData, edgeRows]
    rw [hrows, hr.edges]
    refine List.map_congr_left fun row hmem => ?_
    have hid : (g.names.idOf row.1, row.2) ∈ g.edgeRows.map fun row => (some row.1, row.2) :=
      hr.edges ▸ List.mem_map_of_mem hmem
    rcases List.mem_map.1 hid with ⟨row', _, hid⟩
    rw [Prod.mk.injEq] at hid
    rw [Names.idOf_of_prefix hgh.names_prefix hid.1.symm, hid.1]
  attr_eq x name := by
    rw [← hr.attr_eq]
    cases x with
    | vertex v => exact hgh.vertexAttr_eq hg v name
    | edge e => exact hgh.edgeAttr_eq hg e name
  version_eq := hgh.version_eq.trans hr.version_eq

end Recorded

theorem Grows.vertexCount_eq (hgh : g.Grows h) : h.vertexCount = g.vertexCount := by
  rw [vertexCount, hgh.sameData.vertexData, vertexCount]

theorem Grows.edgeCount_eq (hgh : g.Grows h) : h.edgeCount = g.edgeCount := by
  rw [edgeCount, hgh.sameData.edgeData, edgeCount]

theorem attributesOf_vertexCount (g : Graph) : g.attributesOf (.vertex g.vertexCount) = none := by
  simp [attributesOf, vertexCount]

theorem attributesOf_edgeCount (g : Graph) : g.attributesOf (.edge g.edgeCount) = none := by
  simp [attributesOf, edgeCount]

/-- What is written to an element under a name is read there, and all else is read as before. -/
theorem attr_of_written {g' : Graph} (hnames : g'.names = h.names) {x : Element}
    {written : List (String × AttrValue)} {values : List (NameId × AttrValue)}
    (hkeys : h.names.Numbers written values)
    (hwritten : ∀ y, g'.attributesOf y =
      if y = x then some (((h.attributesOf x).getD {}).setAll values) else h.attributesOf y)
    (y : Element) (name : String) :
    g'.attr y name =
      (if x = y then written.reverse.lookup name else none).or (h.attr y name) := by
  have hold (key : NameId) :
      ((h.attributesOf x).getD {}).get key = (h.attributesOf x).bind (·.get key) := by
    cases h.attributesOf x with
    | none => rfl
    | some attributes => rfl
  -- A name has one number only, so no other name reads what was written.
  rw [attr_eq, attr_eq, hnames, hwritten]
  by_cases hy : y = x
  · subst hy
    simp only [if_true, Option.bind_some, Attributes.get_setAll, hold, hkeys.reverse.lookup_eq]
    cases h.names.idOf name with
    | none => rfl
    | some key => rfl
  · rw [if_neg hy, if_neg (Ne.symm hy), Option.none_or]

/-- The attributes of a new element are entered under the numbers of their names. -/
theorem prepare_numbers (g : Graph) (typeName : String) (isEdgeType : Bool)
    (attrs : List (String × AttrValue)) :
    (g.prepare typeName isEdgeType attrs).2.names.Numbers attrs
      (g.prepare typeName isEdgeType attrs).1 := by
  have hids := Names.idOf_internAll
    ((g.intern typeName).2.ensureType (g.intern typeName).1 isEdgeType).names (attrs.map (·.1))
  rw [List.map_map] at hids
  calc (g.prepare typeName isEdgeType attrs).1.map (fun entry => (some entry.1, entry.2))
      = ((((g.intern typeName).2.ensureType (g.intern typeName).1 isEdgeType).names.internAll
          (attrs.map (·.1))).1.map some).zip (attrs.map (·.2)) := by
        rw [List.zip_map_left]
        rfl
    _ = attrs.map fun entry =>
          ((g.prepare typeName isEdgeType attrs).2.names.idOf entry.1, entry.2) := by
        rw [hids, List.zip_map']
        rfl

/-- The name of its type is known before an element is entered. -/
theorem prepare_idOf (g : Graph) (typeName : String) (isEdgeType : Bool)
    (attrs : List (String × AttrValue)) :
    (g.prepare typeName isEdgeType attrs).2.names.idOf typeName =
      some (g.intern typeName).1 := by
  have hgrows : (g.intern typeName).2.Grows (g.prepare typeName isEdgeType attrs).2 :=
    (Grows.ensureType .refl (g.names.intern_lt typeName) isEdgeType).internAll _
  exact Names.idOf_of_prefix hgrows.names_prefix (g.names.idOf_intern typeName)

namespace Recorded

variable {records : List Record}

/-- One more record, for one entry in the columns at most and for attributes of one element. -/
theorem enter (hr : h.Recorded records) {h' : Graph} {r : Record}
    {values : List (NameId × AttrValue)} (hnames : h'.names = h.names)
    (hversion : h'.version = h.version + 1)
    (hvertices : h'.vertexRows.map some =
      h.vertexRows.map some ++ r.vertex?.toList.map h.names.idOf)
    (hedges : h'.edgeRows.map (fun row => (some row.1, row.2)) =
      h.edgeRows.map (fun row => (some row.1, row.2)) ++
        r.edge?.toList.map fun row => (h.names.idOf row.1, row.2))
    (hkeys : h.names.Numbers r.written values)
    (hwritten : ∀ y, h'.attributesOf y =
      if y = r.element then some (((h.attributesOf r.element).getD {}).setAll values)
      else h.attributesOf y) : h'.Recorded (r :: records) where
  vertices := by
    rw [hvertices, hr.vertices, addedVertices_cons, List.map_append, hnames]
  edges := by
    rw [hedges, hr.edges, addedEdges_cons, List.map_append, hnames]
  attr_eq x name := by
    rw [lastWrite_cons, ← hr.attr_eq]
    exact attr_of_written hnames hkeys hwritten x name
  version_eq := by
    rw [hversion, hr.version_eq, List.length_cons]

theorem pushVertex (hr : h.Recorded records) {typeName : String} {type : NameId}
    {attrs : List (String × AttrValue)} {values : List (NameId × AttrValue)}
    (htype : h.names.idOf typeName = some type) (hkeys : h.names.Numbers attrs values) :
    (h.pushVertex type (({} : Attributes).setAll values)).Recorded
      (⟨.addVertex typeName attrs, h.vertexCount⟩ :: records) := by
  refine hr.enter rfl rfl ?_ ?_ hkeys ?_
  · simp [Record.vertex?, htype]
  · simp [Record.edge?]
  · intro y
    -- There was no such vertex before, so it starts without attributes.
    rw [Record.element, attributesOf_vertexCount]
    exact attributesOf_pushVertex h type _ y

theorem pushEdge (hr : h.Recorded records) {typeName : String} {type : NameId}
    (alpha omega : Nat) {attrs : List (String × AttrValue)} {values : List (NameId × AttrValue)}
    (htype : h.names.idOf typeName = some type) (hkeys : h.names.Numbers attrs values) :
    (h.pushEdge type alpha omega (({} : Attributes).setAll values)).Recorded
      (⟨.addEdge typeName alpha omega attrs, h.edgeCount⟩ :: records) := by
  refine hr.enter rfl rfl ?_ ?_ hkeys ?_
  · simp [Record.vertex?]
  · simp [Record.edge?, htype]
  · intro y
    rw [Record.element, attributesOf_edgeCount]
    exact attributesOf_pushEdge h type alpha omega _ y

theorem writeVertex (hr : h.Recorded records) {v : Nat} (hv : v < h.vertexCount) {name : String}
    {key : NameId} (hkey : h.names.idOf name = some key) (value : AttrValue) :
    (h.writeVertex v key value).Recorded (⟨.setVertexAttr v name value, v⟩ :: records) := by
  have hkeys : h.names.Numbers [(name, value)] [(key, value)] :=
    congrArg (fun id => [(id, value)]) hkey.symm
  refine hr.enter rfl rfl ?_ ?_ hkeys (attributesOf_writeVertex hv key value)
  · simp [Record.vertex?]
  · simp [Record.edge?]

theorem writeEdge (hr : h.Recorded records) {e : Nat} (he : e < h.edgeCount) {name : String}
    {key : NameId} (hkey : h.names.idOf name = some key) (value : AttrValue) :
    (h.writeEdge e key value).Recorded (⟨.setEdgeAttr e name value, e⟩ :: records) := by
  have hkeys : h.names.Numbers [(name, value)] [(key, value)] :=
    congrArg (fun id => [(id, value)]) hkey.symm
  refine hr.enter rfl rfl ?_ ?_ hkeys (attributesOf_writeEdge he key value)
  · simp [Record.vertex?]
  · simp [Record.edge?]

theorem change (hr : g.Recorded records) (hg : g.Grounded) (made : Change) :
    (made.perform g).2.Recorded
      ((Operation.change made).records (made.perform g).1 ++ records) := by
  -- First the graph grows by names and types; an entry is made last, if at all.
  cases made with
  | addVertex typeName attrs =>
    have hprepared : g.Grows (g.prepare typeName false attrs).2 :=
      .prepare .refl typeName false attrs
    rw [Change.perform]
    rcases addVertex_cases_eq g typeName attrs with ⟨_, heq⟩ | heq
    · rw [heq]
      exact hr.grows hg (.intern typeName .refl)
    · rw [heq, ← hprepared.vertexCount_eq]
      exact (hr.grows hg hprepared).pushVertex (g.prepare_idOf typeName false attrs)
        (g.prepare_numbers typeName false attrs)
  | addEdge typeName alpha omega attrs =>
    have hprepared : g.Grows (g.prepare typeName true attrs).2 := .prepare .refl typeName true attrs
    rw [Change.perform]
    rcases addEdge_cases_eq g typeName alpha omega attrs with ⟨_, heq⟩ | ⟨_, heq⟩ | ⟨_, _, heq⟩
    · -- A missing end is noticed before anything is interned.
      rw [heq]
      exact hr
    · rw [heq]
      exact hr.grows hg (.intern typeName .refl)
    · rw [heq, ← hprepared.edgeCount_eq]
      exact (hr.grows hg hprepared).pushEdge alpha omega (g.prepare_idOf typeName true attrs)
        (g.prepare_numbers typeName true attrs)
  | setVertexAttr v name value =>
    rw [Change.perform]
    rcases setVertexAttr_cases_eq g v name value with ⟨_, heq⟩ | ⟨hv, heq⟩
    · rw [heq]
      exact hr
    · rw [heq]
      exact (hr.grows hg (.intern name .refl)).writeVertex hv (g.names.idOf_intern name) value
  | setEdgeAttr e name value =>
    rw [Change.perform]
    rcases setEdgeAttr_cases_eq g e name value with ⟨_, heq⟩ | ⟨he, heq⟩
    · rw [heq]
      exact hr
    · rw [heq]
      exact (hr.grows hg (.intern name .refl)).writeEdge he (g.names.idOf_intern name) value

theorem perform (hr : g.Recorded records) (hg : g.Grounded) (op : Operation) :
    (op.perform g).2.Recorded (op.records (op.perform g).1 ++ records) := by
  cases op with
  | intern name => exact hr.grows hg (.intern name .refl)
  | declareVertexType name supertypes =>
    exact hr.grows hg (.declareVertexType .refl name supertypes)
  | declareEdgeType name supertypes alphaRole omegaRole =>
    exact hr.grows hg (.declareEdgeType .refl name supertypes alphaRole omegaRole)
  | change made => exact hr.change hg made

end Recorded

/-! ## Sequences of operations -/

theorem Change.perform_snd (made : Change) (g : Graph) : (made.perform g).2 = made.apply g := by
  cases made <;> rfl

theorem Constructed.perform (hg : g.Constructed) (op : Operation) :
    (op.perform g).2.Constructed := by
  cases op with
  | intern name => exact hg.intern name
  | declareVertexType name supertypes => exact hg.declareVertexType name supertypes
  | declareEdgeType name supertypes alphaRole omegaRole =>
    exact hg.declareEdgeType name supertypes alphaRole omegaRole
  | change made =>
    rw [Operation.perform, made.perform_snd]
    exact hg.change made

namespace History

/-- What a graph answers, in terms of the changes that took place. -/
structure Consistent (history : History) : Prop where
  vertices_eq : history.graph.vertices = .range (addedVertices history.records).length
  vertexType_eq (v : Nat) : history.graph.vertexType v =
    (addedVertices history.records)[v]?.bind history.graph.names.idOf
  edges_eq : history.graph.edges = .range (addedEdges history.records).length
  edgeType_eq (e : Nat) : history.graph.edgeType e =
    (addedEdges history.records)[e]?.bind fun row => history.graph.names.idOf row.1
  alpha_eq (e : Nat) : history.graph.alpha e = (addedEdges history.records)[e]?.map (·.2.1)
  omega_eq (e : Nat) : history.graph.omega e = (addedEdges history.records)[e]?.map (·.2.2)
  /-- Both ends of every edge are vertices. -/
  ends {e : Nat} : e ∈ history.graph.edges → ∃ alpha omega,
    history.graph.alpha e = some alpha ∧ history.graph.omega e = some omega ∧
      alpha ∈ history.graph.vertices ∧ omega ∈ history.graph.vertices
  /-- The leaving edges, ascending and each of them once, and then the entering ones. -/
  incidences_eq (v : Nat) (d : Direction) : history.graph.incidences v d =
    (if d.admits true then
      (incident history.graph.edgeCount history.graph.alpha v).map (⟨·, true⟩) else []) ++
    (if d.admits false then
      (incident history.graph.edgeCount history.graph.omega v).map (⟨·, false⟩) else [])
  this_eq {v : Nat} {d : Direction} {e : Incidence} :
    e ∈ history.graph.incidences v d → history.graph.this e = some v
  mem_findByType (typeName : String) (v : Nat) : v ∈ history.graph.findByType typeName ↔
    ∃ type sup, history.graph.vertexType v = some type ∧
      history.graph.names.idOf typeName = some sup ∧ history.graph.isSubtypeOf type sup = true
  mem_findEdgesByType (typeName : String) (e : Nat) : e ∈ history.graph.findEdgesByType typeName ↔
    ∃ type sup, history.graph.edgeType e = some type ∧
      history.graph.names.idOf typeName = some sup ∧ history.graph.isSubtypeOf type sup = true
  vertexAttr_eq (v : Nat) (name : String) :
    history.graph.vertexAttr v name = lastWrite history.records (.vertex v) name
  edgeAttr_eq (e : Nat) (name : String) :
    history.graph.edgeAttr e name = lastWrite history.records (.edge e) name
  version_eq : history.graph.version = history.records.length
  interned_of_error {op : Operation} {reason : GraphError} :
    (op.perform history.graph).1 = .error reason →
      history.graph.Interned (op.perform history.graph).2

/-- Every operation keeps the record, so a sequence of them does. -/
theorem foldl_perform (ops : List Operation) {history : History}
    (hconstructed : history.graph.Constructed) (hr : history.graph.Recorded history.records) :
    (ops.foldl perform history).graph.Constructed ∧
      (ops.foldl perform history).graph.Recorded (ops.foldl perform history).records := by
  -- What one operation leaves behind is all that the others start from.
  induction ops generalizing history with
  | nil => exact ⟨hconstructed, hr⟩
  | cons op ops ih =>
    exact ih (hconstructed.perform op) (hr.perform hconstructed.grounded op)

end History

theorem WellFormed.incidences_eq (hg : g.WellFormed) (v : Nat) (d : Direction) :
    g.incidences v d =
      (if d.admits true then (incident g.edgeCount g.alpha v).map (⟨·, true⟩) else []) ++
      (if d.admits false then (incident g.edgeCount g.omega v).map (⟨·, false⟩) else []) := by
  unfold incidences
  split
  · rename_i hnone
    -- No edge is at a vertex that does not exist.
    have hout : ¬ v < g.vertexCount := Nat.not_lt.2 (Array.getElem?_eq_none_iff.1 hnone)
    rw [incident_eq_nil fun e _ he => hout (hg.alpha_lt he),
      incident_eq_nil fun e _ he => hout (hg.omega_lt he)]
    simp
  · rename_i data hdata
    rw [hg.leaving_eq (Option.map_eq_some_iff.2 ⟨data, hdata, rfl⟩),
      hg.entering_eq (Option.map_eq_some_iff.2 ⟨data, hdata, rfl⟩)]

/-- A column of numbers is read off the column of the names. -/
theorem getElem?_eq_bind {α β : Type} {f : β → Option α} {ids : List α} {names : List β}
    (h : ids.map some = names.map f) (i : Nat) : ids[i]? = names[i]?.bind f := by
  calc ids[i]? = (ids.map some)[i]?.join := by
        rw [List.getElem?_map]
        cases ids[i]? <;> rfl
    _ = (names.map f)[i]?.join := by rw [h]
    _ = names[i]?.bind f := by
        rw [List.getElem?_map]
        cases names[i]? <;> rfl

namespace Recorded

variable {records : List Record}

theorem vertexCount_eq (hr : g.Recorded records) :
    g.vertexCount = (addedVertices records).length := by
  have hlength := congrArg List.length hr.vertices
  rw [List.length_map, List.length_map, vertexRows, List.length_map] at hlength
  exact hlength

theorem edgeCount_eq (hr : g.Recorded records) :
    g.edgeCount = (addedEdges records).length := by
  have hlength := congrArg List.length hr.edges
  rw [List.length_map, List.length_map, edgeRows, List.length_map] at hlength
  exact hlength

theorem vertexType_eq (hr : g.Recorded records) (v : Nat) :
    g.vertexType v = (addedVertices records)[v]?.bind g.names.idOf := by
  rw [vertexType_eq_getElem?]
  exact getElem?_eq_bind hr.vertices v

theorem edgeType_eq (hr : g.Recorded records) (e : Nat) :
    g.edgeType e = (addedEdges records)[e]?.bind fun row => g.names.idOf row.1 := by
  have htypes : (g.edgeRows.map (·.1)).map some =
      (addedEdges records).map fun row => g.names.idOf row.1 := by
    simpa only [List.map_map, Function.comp_def] using congrArg (List.map (·.1)) hr.edges
  rw [edgeType_eq_getElem?, ← List.getElem?_map]
  exact getElem?_eq_bind htypes e

theorem ends_eq (hr : g.Recorded records) :
    g.edgeRows.map (·.2) = (addedEdges records).map (·.2) := by
  simpa only [List.map_map, Function.comp_def] using congrArg (List.map (·.2)) hr.edges

theorem alpha_eq (hr : g.Recorded records) (e : Nat) :
    g.alpha e = (addedEdges records)[e]?.map (·.2.1) := by
  have hend := congrArg (fun ends => ends[e]?.map (·.1)) hr.ends_eq
  simp only [List.getElem?_map, Option.map_map] at hend
  rw [alpha_eq_getElem?]
  exact hend

theorem omega_eq (hr : g.Recorded records) (e : Nat) :
    g.omega e = (addedEdges records)[e]?.map (·.2.2) := by
  have hend := congrArg (fun ends => ends[e]?.map (·.2)) hr.ends_eq
  simp only [List.getElem?_map, Option.map_map] at hend
  rw [omega_eq_getElem?]
  exact hend

end Recorded

/-- Both ends of an edge exist. -/
theorem WellFormed.ends (hg : g.WellFormed) {e : Nat} (he : e ∈ g.edges) : ∃ alpha omega,
    g.alpha e = some alpha ∧ g.omega e = some omega ∧ alpha ∈ g.vertices ∧ omega ∈ g.vertices := by
  have hlt : e < g.edgeData.size := IdSet.mem_range.1 he
  have hα : g.alpha e = some g.edgeData[e].alpha := by simp [alpha, hlt]
  have hω : g.omega e = some g.edgeData[e].omega := by simp [omega, hlt]
  exact ⟨_, _, hα, hω, IdSet.mem_range.2 (hg.alpha_lt hα), IdSet.mem_range.2 (hg.omega_lt hω)⟩

/-- All that a graph answers goes back to the operations that did not fail. -/
theorem History.run_consistent (ops : List Operation) : (History.run ops).Consistent := by
  have hempty : ({} : History).graph.Constructed := .empty
  obtain ⟨hconstructed, hr⟩ := History.foldl_perform ops hempty Recorded.of_empty
  exact {
    vertices_eq := congrArg IdSet.range hr.vertexCount_eq
    vertexType_eq := hr.vertexType_eq
    edges_eq := congrArg IdSet.range hr.edgeCount_eq
    edgeType_eq := hr.edgeType_eq
    alpha_eq := hr.alpha_eq
    omega_eq := hr.omega_eq
    ends := hconstructed.wellFormed.ends
    incidences_eq := hconstructed.wellFormed.incidences_eq
    this_eq := fun he => (hconstructed.wellFormed.mem_incidences.1 he).1
    mem_findByType := fun _ _ => mem_findByType hconstructed
    mem_findEdgesByType := fun _ _ => mem_findEdgesByType hconstructed
    vertexAttr_eq := fun v => hr.attr_eq (.vertex v)
    edgeAttr_eq := fun e => hr.attr_eq (.edge e)
    version_eq := hr.version_eq
    interned_of_error := Operation.interned_of_error }

/-- An attribute that is named twice keeps the later value, a loop is met twice, and an edge that
ends nowhere is not counted. -/
example :
    let g := (History.run [
      .change (.addVertex "Town" [("open", .bool true), ("open", .bool false)]),
      .change (.addEdge "road" 0 0 []), .change (.addEdge "road" 0 1 [])]).graph
    g.vertexAttr 0 "open" = some (.bool false) ∧
      g.incidences 0 .any = [⟨0, true⟩, ⟨0, false⟩] ∧ g.version = 2 := by
  decide +kernel

end Graph
end PathQuery
