import PathQuery.Proofs.Evaluation.Queries

/-!
# A reset makes a query as good as new

A reset forgets what is known below the root of a query.  An evaluation also looks at the nodes to
which guards and fixed edges of automata refer, and an automaton that comes from another query can
refer to nodes that are not below the root.

* `Query.renewed`: a new query for the same question;
* `Query.Used`: what becomes of a query by being evaluated, run and reset;
* `Query.SelfContained`: whatever reaches the query refers to nodes below its root;
* `run_eq_renewed`: then a run answers what a new query answers;
* `run_within`: and what it answers refers to these nodes again;
* `run_condition_kept`: else what an earlier run has found out about a condition can be used again.
-/

namespace PathQuery

namespace Query

/-! ## Histories -/

/-- Nothing is known yet. -/
def renewed (q : Query) : Query where
  nodes := q.nodes
  root := q.root
  bindings := q.bindings
  functions := q.functions
  limits := q.limits

/-- The graph and the results of other queries can be others each time.  After a panic there is no
next call. -/
inductive Used (q : Query) : Query → Prop where
  | new : Used q q
  | evaluated {q' : Query} (g : Graph) (shared : Option SharedEnvironment) (supply : Supply) :
    Used q q' → Orderly (q'.evaluate g shared supply).1 → Used q (q'.evaluate g shared supply).2.1
  | ran {q' : Query} (g : Graph) (env : SharedEnvironment) (supply : Supply) :
    Used q q' → Orderly (q'.run g env supply).1 → Used q (q'.run g env supply).2.1
  | reset {q' : Query} : Used q q' → Used q q'.reset

theorem Agrees.renewed (q : Query) : q.renewed.Agrees q :=
  ⟨rfl, rfl, rfl, rfl, rfl⟩

variable {q q' : Query} {g : Graph} {env : SharedEnvironment} {supply : Supply}

theorem Used.agrees (h : q.Used q') : q.Agrees q' := by
  induction h with
  | new => exact .refl q
  | @evaluated q' g shared supply _ horderly ih =>
    exact ih.trans (q'.evaluate_agrees g shared supply horderly)
  | @ran q' g env supply _ horderly ih =>
    exact (ih.trans (.reset q')).trans (q'.reset.evaluate_agrees g (some env) supply horderly)
  | @reset q' _ ih => exact ih.trans (.reset q')

/-- Nothing below the root is known any more. -/
theorem memo_reset (q : Query) {n : NodeId} (hn : q.nodes.Below q.root n) :
    q.reset.cache.memo n = .uninitialized := by
  rw [Query.reset, Cache.resetAllFrom, Cache.memo_forgetAll, if_pos ⟨Cache.mem_below_iff.2 hn, rfl⟩]

/-! ## Automata from outside -/

/-- Everything that an evaluation of the query is given refers to nodes below the root.  Of the
results of other queries it is given those that it looks up. -/
structure SelfContained (q : Query) (env : SharedEnvironment) : Prop where
  entries {n : NodeId} {x : String} {v : Value} : q.nodes.Below q.root n →
    q.nodes.get n = .ok (.var x) → env.get x = some v → v.Within (q.nodes.Below q.root)
  bindings {frame : String × Value} : frame ∈ q.bindings.frames →
    frame.2.Within (q.nodes.Below q.root)
  literals {n : NodeId} {v : Value} : q.nodes.Below q.root n →
    q.nodes.get n = .ok (.literal v) → v.Within (q.nodes.Below q.root)
  functions {n : Nat} {name : String} {args : List Value} {v : Value} :
    (∀ arg ∈ args, arg.Within (q.nodes.Below q.root)) → q.functions.call n name args = .ok v →
    v.Within (q.nodes.Below q.root)

theorem SelfContained.prepared (h : q.SelfContained env) (g : Graph) :
    Evaluation.Prepared (.equality (q.nodes.Below q.root)) (fun _ => False)
      (q.scope g (some env)) (some env) :=
  Evaluation.prepared_equality (fun hn hc => hn.tail hc)
    (fun hn hget => h.literals hn hget) (fun _ _ _ _ hargs hcall => h.functions hargs hcall)
    fun hn hget hx => h.entries hn hget hx

/-- A run that follows on others answers what a new query answers in its place: nothing that was
found out before has a part in it. -/
theorem run_eq_renewed (hused : q.Used q') (hcontained : q.SelfContained env) (g : Graph)
    (supply : Supply) :
    (q'.run g env supply).1 = (q.renewed.evaluate g (some env) supply).1 := by
  have hagrees := hused.agrees
  have hcache : q.renewed.cache.Corresponds (.equality (q.nodes.Below q.root)) q'.reset.cache := by
    intro n hn
    have hbelow : q'.nodes.Below q'.root n := by
      rw [hagrees.nodes_eq, hagrees.root_eq]
      exact hn
    rw [q'.memo_reset hbelow]
    exact .uninitialized
  -- The new query knows nothing and the old one nothing below its root, where both stay.
  have hcorresponds : q.renewed.Corresponds (.equality (q.nodes.Below q.root)) q'.reset :=
    (((Agrees.renewed q).trans hagrees).trans (.reset q')).corresponds hcache
      fun _ => hcontained.bindings
  have houtcomes := hcorresponds.outcomes (hcontained.prepared g) .refl
    (supply.corresponds_self _)
  exact (houtcomes.eq_of_exact trivial).symm

/-- So the answer can be given to all queries whose roots are above this one. -/
theorem run_within (hcontained : q.SelfContained env) {v : Value}
    (hrun : (q.run g env supply).1 = .ok v) : v.Within (q.nodes.Below q.root) := by
  have hcache : q.reset.cache.Corresponds (.equality (q.nodes.Below q.root)) q.reset.cache := by
    intro n hn
    rw [q.memo_reset hn]
    exact .uninitialized
  have hcorresponds : q.reset.Corresponds (.equality (q.nodes.Below q.root)) q.reset :=
    (Agrees.refl q.reset).corresponds hcache fun _ => hcontained.bindings
  have houtcomes := hcorresponds.outcomes (hcontained.prepared g) .refl
    (supply.corresponds_self _)
  have hevaluate : (q.reset.evaluate g (some env) supply).1 = .ok v := hrun
  rw [hevaluate] at houtcomes
  exact Value.Corresponds.within houtcomes

/-! ## A condition that is not below the root -/

/-- The roads that can be used if they are open, and where they lead: once with the roads that
another query has found, once with its own. -/
def crossing : SyntaxGraph where
  nodes := #[some (.var "open"),
    some (.simplePath .outgoing [⟨"road", false⟩] [] (some ⟨0, none⟩)),
    some (.literal (.vertex 0)), some (.var "roads"), some (.forwardVertexSet 2 3),
    some (.forwardVertexSet 2 1), some (.call "union" [4, 5])]

def road : Graph :=
  let g := Graph.empty
  let g := (g.addVertex "Town" []).2
  let g := (g.addVertex "Town" []).2
  (g.addEdge "road" 0 1 []).2

def asking (root : NodeId) : Query where
  nodes := crossing
  root := root

def opening (isOpen : Bool) : SharedEnvironment :=
  ⟨[("open", .bool isOpen)]⟩

/-- The query of the roads has published its value. -/
def roadsWhen (isOpen : Bool) : SharedEnvironment :=
  match ((asking 1).run road (opening isOpen) {}).1 with
  | .ok roads => ⟨[("open", .bool isOpen), ("roads", roads)]⟩
  | .error _ => opening isOpen

/-- The vertices that were found. -/
def found : Except Failure Value → Option (List Nat)
  | .ok (.vertexSet s) => some s.toList
  | _ => none

theorem orderly_of_found {outcome : Except Failure Value} {vs : List Nat}
    (h : found outcome = some vs) : Orderly outcome := by
  rintro failure rfl
  cases h

/-- The condition of the roads is not below the root of the query that is only told about them.  A
run after they were closed still takes them to be open. -/
theorem run_condition_kept :
    (asking 4).Used ((asking 4).run road (roadsWhen true) {}).2.1 ∧
      found (((asking 4).run road (roadsWhen true) {}).2.1.run road (roadsWhen false) {}).1 =
        some [1] ∧
      found ((asking 4).renewed.evaluate road (some (roadsWhen false)) {}).1 = some [] := by
  have hfirst : found ((asking 4).run road (roadsWhen true) {}).1 = some [1] := by decide +kernel
  exact ⟨.ran road (roadsWhen true) {} .new (orderly_of_found hfirst), by decide +kernel,
    by decide +kernel⟩

theorem literal_crossing {n : NodeId} {v : Value} (h : crossing.get n = .ok (.literal v)) :
    v.IsSimple := by
  have hvertex : v = .vertex 0 := by simpa [crossing] using SyntaxGraph.mem_of_get h
  exact hvertex ▸ .vertex 0

theorem var_crossing {n : NodeId} {x : String} (h : crossing.get n = .ok (.var x)) :
    n = 0 ∧ x = "open" ∨ n = 3 ∧ x = "roads" := by
  match n, h with
  | 0, rfl => exact .inl ⟨rfl, rfl⟩
  | 3, rfl => exact .inr ⟨rfl, rfl⟩
  | 4, h => cases h
  | 5, h => cases h
  | 6, h => cases h
  | _ + 7, h => cases h

theorem selfContained_asking {root : NodeId} {env : SharedEnvironment}
    (hentries : ∀ {x v}, env.get x = some v → v.Within (crossing.Below root)) :
    (asking root).SelfContained env where
  entries _ _ hx := hentries hx
  bindings hframe := absurd hframe List.not_mem_nil
  literals _ hget := .simple (literal_crossing hget)
  functions _ hcall := .simple (FunctionLibrary.isSimple_of_builtin hcall)

theorem get_opening {isOpen : Bool} {x : String} {v : Value} (h : (opening isOpen).get x = some v) :
    x = "open" ∧ v = .bool isOpen := by
  simp only [opening, SharedEnvironment.get, List.lookup_cons, List.lookup_nil] at h
  split at h <;> cases h
  exact ⟨beq_iff_eq.1 ‹_›, rfl⟩

theorem selfContained_opening (root : NodeId) (isOpen : Bool) :
    (asking root).SelfContained (opening isOpen) := by
  refine selfContained_asking ?_
  intro x v hv
  rw [(get_opening hv).2]
  exact .simple (.bool isOpen)

/-- The node of the roads is below the root of the query that also looks for them itself. -/
theorem selfContained_roadsWhen (isOpen : Bool) : (asking 6).SelfContained (roadsWhen isOpen) := by
  have hbelow : crossing.Below 6 1 := Cache.mem_below_iff.1 (by decide +kernel)
  refine selfContained_asking ?_
  intro x v hv
  unfold roadsWhen at hv
  split at hv
  · rename_i roads hroads
    simp only [SharedEnvironment.get, List.lookup_cons, List.lookup_nil] at hv
    split at hv
    · cases hv
      exact .simple (.bool isOpen)
    · split at hv <;> cases hv
      exact (run_within (selfContained_opening 1 isOpen) hroads).mono fun _ hn => hbelow.trans hn
  · rw [(get_opening hv).2]
    exact .simple (.bool isOpen)

theorem run_eq_renewed_roads :
    (asking 6).Used ((asking 6).run road (roadsWhen true) {}).2.1 ∧
      (asking 6).SelfContained (roadsWhen false) ∧
      (((asking 6).run road (roadsWhen true) {}).2.1.run road (roadsWhen false) {}).1 =
        ((asking 6).renewed.evaluate road (some (roadsWhen false)) {}).1 := by
  have hfirst : found ((asking 6).run road (roadsWhen true) {}).1 = some [1] := by decide +kernel
  have hused : (asking 6).Used ((asking 6).run road (roadsWhen true) {}).2.1 :=
    .ran road (roadsWhen true) {} .new (orderly_of_found hfirst)
  exact ⟨hused, selfContained_roadsWhen false,
    run_eq_renewed hused (selfContained_roadsWhen false) road {}⟩

end Query

end PathQuery
