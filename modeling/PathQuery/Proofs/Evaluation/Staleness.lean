import PathQuery.Proofs.Evaluation.Handles
import PathQuery.Proofs.Evaluation.Reset
import PathQuery.Proofs.Graph.Version

/-!
# Queries that are not stale

A query notes the version of the graph whenever it answers a value, also when it has found the value
in its cache.  So the version says where the value belongs only if the cache holds nothing from an
older graph.

* `Query.Knows`: the value of the root is in the cache;
* `Query.Steady`: nothing but the graph decides what the query answers;
* `Query.Tended`: what becomes of a query that is reset before it is asked about a changed graph;
* `Query.Tracks`: the invariant, by which the noted version belongs to the value that is known;
* `evaluate_current`: what a query answers when it is not stale is the answer to the graph;
* `old_answer_not_stale`: without the reset, an answer to an older graph is taken for a current one.
-/

namespace PathQuery

namespace Query

variable {q q' : Query} {g : Graph} {shared : Option SharedEnvironment} {supply supply' : Supply}
  {base : Nat} {v : Value}

/-! ## What an evaluation leaves -/

structure Knows (q : Query) (v : Value) : Prop where
  defined : ∃ node, q.nodes.get q.root = .ok node
  memo_eq : q.cache.memo q.root = .done v

theorem knows_of_evaluate (h : (q.evaluate g shared supply).1 = .ok v) :
    (q.evaluate g shared supply).2.1.Knows v ∧
      (q.evaluate g shared supply).2.1.evaluatedAt = some g.version := by
  rw [evaluate_apply] at h ⊢
  rcases hresult : Evaluation.result (q.scope g shared) q.root ⟨q.cache, q.bindings, supply⟩ with
    ⟨failure | u, w⟩
  · rw [hresult] at h
    cases h
  · rw [hresult] at h
    cases h
    obtain ⟨hdefined, hmemo⟩ := Evaluation.memo_of_resultWithin hresult
    exact ⟨⟨hdefined, hmemo⟩, rfl⟩

theorem evaluatedAt_of_failure {failure : Failure}
    (h : (q.evaluate g shared supply).1 = .error failure) :
    (q.evaluate g shared supply).2.1.evaluatedAt = q.evaluatedAt := by
  rw [evaluate_apply] at h ⊢
  rcases hresult : Evaluation.result (q.scope g shared) q.root ⟨q.cache, q.bindings, supply⟩ with
    ⟨failure | u, w⟩
  · rfl
  · rw [hresult] at h
    cases h

/-- The graph has no part in it. -/
theorem Knows.evaluate (h : q.Knows v) (g : Graph) (shared : Option SharedEnvironment)
    (supply : Supply) : (q.evaluate g shared supply).1 = .ok v := by
  rcases h with ⟨⟨node, hget⟩, hmemo⟩
  have hresult : Evaluation.result (q.scope g shared) q.root ⟨q.cache, q.bindings, supply⟩ =
      (.ok v, ⟨q.cache.extend q.root, q.bindings, supply⟩) :=
    Evaluation.resultWithin_of_memo hget hmemo
  rw [evaluate_apply, hresult]

/-! ## Questions with one answer -/

/-- Everything that the query is given was there before and refers to nodes below its root, and its
functions answer the same each time.  Of the results of other queries it is given those that it
looks up. -/
structure Steady (base : Nat) (q : Query) (shared : Option SharedEnvironment) : Prop where
  entries {n : NodeId} {x : String} {v : Value} : q.nodes.Below q.root n →
    q.nodes.get n = .ok (.var x) → shared.bind (·.get x) = some v →
    v.Given base (q.nodes.Below q.root)
  bindings {frame : String × Value} : frame ∈ q.bindings.frames →
    frame.2.Given base (q.nodes.Below q.root)
  literals {n : NodeId} {v : Value} : q.nodes.Below q.root n →
    q.nodes.get n = .ok (.literal v) → v.Given base (q.nodes.Below q.root)
  functions : q.functions.Uniform base (q.nodes.Below q.root)

/-- Nothing is known below the root. -/
def Blank (q : Query) : Prop :=
  ∀ n, q.nodes.Below q.root n → q.cache.memo n = .uninitialized

theorem blank_reset (q : Query) : q.reset.Blank :=
  fun _ hn => q.memo_reset hn

theorem blank_renewed (q : Query) : q.renewed.Blank :=
  fun n _ => Cache.memo_empty n

/-- What nothing is known about is found out anew, and the answer is the same each time. -/
theorem Steady.content_eq (h : q.Steady base shared) (hagrees : q.Agrees q') (hblank : q'.Blank)
    (hsupply : base ≤ supply.handles) (hsupply' : base ≤ supply'.handles) :
    (q'.evaluate g shared supply).1.map Value.content =
      (q.renewed.evaluate g shared supply').1.map Value.content := by
  -- The supplies may be different, so that what is made anew has other handles.
  let C := (Pairing.settled hsupply' hsupply).correspondence (q.nodes.Below q.root)
  have hgiven : ∀ {v : Value}, v.Given base (q.nodes.Below q.root) → v.Corresponds C v :=
    fun hv => hv.before.corresponds hv.within fun k hk => .inl ⟨rfl, hk⟩
  have hcache : q.renewed.cache.Corresponds C q'.cache := by
    intro n hn
    have hn' : q'.nodes.Below q'.root n := by
      rw [hagrees.nodes_eq, hagrees.root_eq]
      exact hn
    rw [q.blank_renewed n hn, hblank n hn']
    exact .uninitialized
  have hcorresponds : q.renewed.Corresponds C q' := by
    refine ⟨hagrees.nodes_eq, hagrees.root_eq, hagrees.functions_eq, hagrees.limits_eq, hcache, ?_⟩
    rw [hagrees.bindings_eq]
    exact List.forall₂_same.2 fun frame hframe => ⟨rfl, hgiven (h.bindings hframe)⟩
  have hprepared : Evaluation.Prepared C (fun _ => False) (q.renewed.scope g shared) shared := by
    refine ⟨fun hn hc => hn.tail hc, fun hn hget => hgiven (h.literals hn hget), ?_, ?_⟩
    · exact h.functions C rfl id fun k hk => .inl ⟨rfl, hk⟩
    · intro n x hn hget
      change (∃ v w, shared.bind (·.get x) = some v ∧ shared.bind (·.get x) = some w ∧ _) ∨
        shared.bind (·.get x) = none ∧ _
      cases hx : shared.bind (·.get x) with
      | none => exact .inr ⟨rfl, .inl rfl⟩
      | some v => exact .inl ⟨v, v, rfl, rfl, hgiven (h.entries hn hget hx)⟩
  have houtcomes := hcorresponds.outcomes hprepared .refl
    (Supply.corresponds_start (C := C) id rfl rfl)
  exact houtcomes.content_eq.symm

theorem Steady.content_eq_renewed (h : q.Steady base shared) (g : Graph)
    (hsupply : base ≤ supply.handles) (hsupply' : base ≤ supply'.handles) :
    (q.renewed.evaluate g shared supply).1.map Value.content =
      (q.renewed.evaluate g shared supply').1.map Value.content :=
  h.content_eq (Agrees.renewed q).symm q.blank_renewed hsupply hsupply'

/-! ## Histories -/

/-- What becomes of a query and of its graph, when the query is asked only if nothing is known below
its root or it is not stale. -/
inductive Tended (base : Nat) (q : Query) (shared : Option SharedEnvironment) :
    Bool → Query → Graph → Prop where
  | new {g : Graph} : g.Constructed → Tended base q shared true q.renewed g
  | changed {unknown : Bool} {q' : Query} {g : Graph} (change : Graph.Change) :
    Tended base q shared unknown q' g → Tended base q shared unknown q' (change.apply g)
  | reset {unknown : Bool} {q' : Query} {g : Graph} :
    Tended base q shared unknown q' g → Tended base q shared true q'.reset g
  | evaluated {unknown : Bool} {q' : Query} {g : Graph} {supply : Supply} :
    Tended base q shared unknown q' g → unknown = true ∨ q'.isStale g = false →
    base ≤ supply.handles → Orderly (q'.evaluate g shared supply).1 →
    Tended base q shared false (q'.evaluate g shared supply).2.1 g

theorem isStale_eq_false_iff : q.isStale g = false ↔ q.evaluatedAt = some g.version := by
  simp [isStale]

/-- The noted version belongs to an earlier graph, or to this one and then what is known of the root
is the answer to it. -/
structure Tracks (base : Nat) (q : Query) (shared : Option SharedEnvironment) (unknown : Bool)
    (q' : Query) (g : Graph) : Prop where
  constructed : g.Constructed
  agrees : q.Agrees q'
  blank : unknown = true → q'.Blank
  noted {version : Nat} : q'.evaluatedAt = some version → version ≤ g.version
  current : q'.evaluatedAt = some g.version → ∃ (supply : Supply) (v : Value),
    base ≤ supply.handles ∧ (q.renewed.evaluate g shared supply).1 = .ok v ∧
      (unknown = false → ∃ w, q'.Knows w ∧ w.content = v.content)

namespace Tracks

variable {unknown : Bool}

theorem new (hg : g.Constructed) : Tracks base q shared true q.renewed g where
  constructed := hg
  agrees := (Agrees.renewed q).symm
  blank _ := q.blank_renewed
  noted hnoted := by cases hnoted
  current hnoted := by cases hnoted

theorem changed (h : Tracks base q shared unknown q' g) (change : Graph.Change) :
    Tracks base q shared unknown q' (change.apply g) := by
  rcases change.apply_eq_or_version_lt h.constructed with heq | hlt
  · rw [heq]
    exact h
  · refine ⟨h.constructed.change change, h.agrees, h.blank, ?_, ?_⟩
    · intro version hnoted
      exact (h.noted hnoted).trans hlt.le
    · -- What was noted is older than the change.
      intro hnoted
      exact absurd (h.noted hnoted) (Nat.not_le_of_lt hlt)

theorem reset (h : Tracks base q shared unknown q' g) :
    Tracks base q shared true q'.reset g where
  constructed := h.constructed
  agrees := h.agrees.trans (.reset q')
  blank _ := q'.blank_reset
  noted := h.noted
  current hnoted := by
    rcases h.current hnoted with ⟨supply, v, hsupply, hv, -⟩
    exact ⟨supply, v, hsupply, hv, fun hfalse => by cases hfalse⟩

/-- An evaluation that may be asked for finds what a new query finds. -/
theorem content_eq (h : Tracks base q shared unknown q' g) (hsteady : q.Steady base shared)
    (hasked : unknown = true ∨ q'.isStale g = false) (hsupply : base ≤ supply.handles)
    (hsupply' : base ≤ supply'.handles) :
    (q'.evaluate g shared supply).1.map Value.content =
      (q.renewed.evaluate g shared supply').1.map Value.content := by
  cases unknown with
  | true => exact hsteady.content_eq h.agrees (h.blank rfl) hsupply hsupply'
  | false =>
    have hnoted := isStale_eq_false_iff.1 (hasked.resolve_left Bool.false_ne_true)
    rcases h.current hnoted with ⟨earlier, v, hearlier, hv, hknown⟩
    rcases hknown rfl with ⟨w, hw, hcontent⟩
    calc (q'.evaluate g shared supply).1.map Value.content
        = .ok w.content := by rw [hw.evaluate]; rfl
      _ = (q.renewed.evaluate g shared earlier).1.map Value.content := by rw [hv, hcontent]; rfl
      _ = _ := hsteady.content_eq_renewed g hearlier hsupply'

theorem evaluated (h : Tracks base q shared unknown q' g) (hsteady : q.Steady base shared)
    (hasked : unknown = true ∨ q'.isStale g = false) (hsupply : base ≤ supply.handles)
    (horderly : Orderly (q'.evaluate g shared supply).1) :
    Tracks base q shared false (q'.evaluate g shared supply).2.1 g := by
  have hagrees := h.agrees.trans (q'.evaluate_agrees g shared supply horderly)
  have hcontent := h.content_eq hsteady hasked hsupply hsupply
  rcases outcomes_of_map_eq hcontent with ⟨v, v', hv, hv', heq⟩ | ⟨failure, hfailed, hfailed'⟩
  · obtain ⟨hknows, hnow⟩ := knows_of_evaluate hv
    refine ⟨h.constructed, hagrees, fun hfalse => absurd hfalse Bool.false_ne_true,
      ?_, ?_⟩
    · intro version hnoted
      rw [hnow] at hnoted
      exact (Option.some.inj hnoted).ge
    · exact fun _ => ⟨supply, v', hsupply, hv', fun _ => ⟨v, hknows, heq⟩⟩
  · have hbefore := evaluatedAt_of_failure hfailed
    refine ⟨h.constructed, hagrees, fun hfalse => absurd hfalse Bool.false_ne_true,
      ?_, ?_⟩
    · intro version hnoted
      exact h.noted (hbefore.symm.trans hnoted)
    · -- A new query fails on this graph, so no value of this graph was ever noted.
      intro hnoted
      rcases h.current (hbefore.symm.trans hnoted) with ⟨earlier, v, hearlier, hv, -⟩
      have hsame := hsteady.content_eq_renewed g hearlier hsupply
      rw [hv, hfailed'] at hsame
      cases hsame

end Tracks

theorem Tended.tracks {unknown : Bool} (h : q.Tended base shared unknown q' g)
    (hsteady : q.Steady base shared) : Tracks base q shared unknown q' g := by
  induction h with
  | new hg => exact .new hg
  | changed change _ ih => exact ih.changed change
  | reset _ ih => exact ih.reset
  | evaluated _ hasked hsupply horderly ih => exact ih.evaluated hsteady hasked hsupply horderly

/-- A query that is not stale answers a value, and a new query answers the same. -/
theorem evaluate_current {unknown : Bool} (htended : q.Tended base shared unknown q' g)
    (hsteady : q.Steady base shared) (hstale : q'.isStale g = false)
    (hsupply : base ≤ supply.handles) (hsupply' : base ≤ supply'.handles) :
    ∃ v v', (q'.evaluate g shared supply).1 = .ok v ∧
      (q.renewed.evaluate g shared supply').1 = .ok v' ∧ v.content = v'.content := by
  have htracks := htended.tracks hsteady
  rcases htracks.current (isStale_eq_false_iff.1 hstale) with ⟨earlier, u, hearlier, hu, -⟩
  have hsame := hsteady.content_eq_renewed g hearlier hsupply'
  have hcontent := htracks.content_eq hsteady (.inr hstale) hsupply hsupply'
  rcases outcomes_of_map_eq hcontent with hvalues | ⟨failure, _, hfailed⟩
  · exact hvalues
  · rw [hu, hfailed] at hsame
    cases hsame

/-! ## A query that is asked again without a reset -/

/-- Whether the town is open. -/
def townOpen : Query where
  nodes := ⟨#[some (.literal (.vertex 0)), some (.attr 0 "open")]⟩
  root := 1

def town : Graph :=
  (Graph.empty.addVertex "Town" [("open", .bool true)]).2

def closing : Graph.Change :=
  .setVertexAttr 0 "open" (.bool false)

def truth : Except Failure Value → Option Bool
  | .ok v => v.asBool
  | .error _ => none

theorem orderly_of_truth {outcome : Except Failure Value} {b : Bool}
    (h : truth outcome = some b) : Orderly outcome := by
  rintro failure rfl
  cases h

/-- The town is closed, and the query is asked without a reset.  It answers what it has known, and
notes the version of the closed town for it. -/
def askedAgain : Query :=
  ((townOpen.evaluate town none {}).2.1.evaluate (closing.apply town) none {}).2.1

theorem old_answer_not_stale :
    askedAgain.isStale (closing.apply town) = false ∧
      truth (askedAgain.evaluate (closing.apply town) none {}).1 = some true ∧
      truth (townOpen.renewed.evaluate (closing.apply town) none {}).1 = some false := by
  decide +kernel

theorem steady_townOpen : townOpen.Steady 0 none where
  entries _ _ hx := by cases hx
  bindings hframe := absurd hframe List.not_mem_nil
  literals {n v} _ hget := by
    have hliteral : v = .vertex 0 := by simpa [townOpen] using SyntaxGraph.mem_of_get hget
    have hsimple : v.IsSimple := hliteral ▸ .vertex 0
    exact ⟨.simple hsimple, .simple hsimple⟩
  functions := FunctionLibrary.uniform_builtin 0 _

/-- With the reset the answer is the current one. -/
def askedAnew : Query :=
  ((townOpen.renewed.evaluate town none {}).2.1.reset.evaluate (closing.apply town) none {}).2.1

theorem evaluate_current_townOpen :
    townOpen.Tended 0 none false askedAnew (closing.apply town) ∧ townOpen.Steady 0 none ∧
      askedAnew.isStale (closing.apply town) = false ∧
      ∃ v v', (askedAnew.evaluate (closing.apply town) none {}).1 = .ok v ∧
        (townOpen.renewed.evaluate (closing.apply town) none {}).1 = .ok v' ∧
        v.content = v'.content := by
  have hfirst : truth (townOpen.renewed.evaluate town none {}).1 = some true := by decide +kernel
  have hsecond : truth ((townOpen.renewed.evaluate town none {}).2.1.reset.evaluate
      (closing.apply town) none {}).1 = some false := by decide +kernel
  have htended : townOpen.Tended 0 none false askedAnew (closing.apply town) := by
    have hopen : townOpen.Tended 0 none false (townOpen.renewed.evaluate town none {}).2.1 town :=
      .evaluated (.new (.addVertex "Town" _ .empty)) (.inl rfl) (Nat.zero_le _)
        (orderly_of_truth hfirst)
    exact .evaluated (.reset (.changed closing hopen)) (.inl rfl) (Nat.zero_le _)
      (orderly_of_truth hsecond)
  have hstale : askedAnew.isStale (closing.apply town) = false := by decide +kernel
  exact ⟨htended, steady_townOpen, hstale,
    evaluate_current htended steady_townOpen hstale (Nat.zero_le _) (Nat.zero_le _)⟩

end Query

end PathQuery
