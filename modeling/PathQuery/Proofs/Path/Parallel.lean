import PathQuery.Proofs.Automaton.Parallel
import PathQuery.Proofs.Path.Recognized
import PathQuery.Proofs.Path.Twin

/-!
# Traversals do not see repeated transitions

Where a transition was tried before, an equal one leads to nothing that was not visited; so it makes
no difference whether it is tried at all.

* `Settles`: after a step something holds from then on, and where it holds the step does nothing;
* `visit_settles`, `takeEdge_settles`: visits and taken edges are of this kind;
* `foldlM_distinctTransitions`: so equal transitions may be left out;
* `Thinned.traverse_eq`: a traversal without repeated transitions is the same computation;
* `Automaton.Deduplicated`, `dedupTransitions_exact`: all that is said about dropping parallel
  transitions.
-/

namespace PathQuery

/-! ## Steps that need not be repeated -/

/-- What the first search has visited the second one has too. -/
def Search.Remembers (search search' : Search) : Prop :=
  ∀ v x, search.visits.contains v x = true → search'.visits.contains v x = true

structure Settles (step : Search → Except Failure Search) (done : Search → Prop) : Prop where
  remembers {s t : Search} : step s = .ok t → s.Remembers t
  settles {s t : Search} : step s = .ok t → done t
  stays {s t : Search} : s.Remembers t → done s → done t
  idles {s : Search} : done s → step s = .ok s

namespace Settles

variable {step next : Search → Except Failure Search} {done done' : Search → Prop}

theorem congr (h : Settles step done) (hdone : ∀ s, done s ↔ done' s) : Settles step done' where
  remembers := h.remembers
  settles hs := (hdone _).1 (h.settles hs)
  stays hst hs := (hdone _).1 (h.stays hst ((hdone _).2 hs))
  idles hs := h.idles ((hdone _).2 hs)

protected theorem pure : Settles pure fun _ => True where
  remembers {s t} h := by
    obtain rfl : s = t := Except.ok.inj h
    exact fun _ _ => id
  settles _ := trivial
  stays _ _ := trivial
  idles _ := rfl

theorem bind (h : Settles step done) (h' : Settles next done') :
    Settles (fun s => step s >>= next) fun s => done s ∧ done' s := by
  have hboth : ∀ {s t}, (step s >>= next) = .ok t → ∃ r, step s = .ok r ∧ next r = .ok t := by
    intro s t hst
    cases hr : step s with
    | error failure =>
      rw [hr] at hst
      cases hst
    | ok r =>
      rw [hr] at hst
      exact ⟨r, rfl, hst⟩
  constructor
  case remembers =>
    intro s t hst v x hx
    rcases hboth hst with ⟨r, hr, ht⟩
    exact h'.remembers ht v x (h.remembers hr v x hx)
  case settles =>
    intro s t hst
    rcases hboth hst with ⟨r, hr, ht⟩
    exact ⟨h.stays (h'.remembers ht) (h.settles hr), h'.settles ht⟩
  case stays =>
    rintro s t hst ⟨hs, hs'⟩
    exact ⟨h.stays hst hs, h'.stays hst hs'⟩
  case idles =>
    rintro s ⟨hs, hs'⟩
    rw [h.idles hs]
    exact h'.idles hs'

theorem foldlM {γ : Type} {f : Search → γ → Except Failure Search} {done : γ → Search → Prop}
    {xs : List γ} (h : ∀ x ∈ xs, Settles (f · x) (done x)) :
    Settles (fun s => xs.foldlM f s) fun s => ∀ x ∈ xs, done x s := by
  induction xs with
  | nil =>
    refine Settles.pure.congr ?_
    simp
  | cons x xs ih =>
    have hfirst := h x List.mem_cons_self
    have hrest := ih fun y hy => h y (List.mem_cons_of_mem x hy)
    refine (hfirst.bind hrest).congr ?_
    intro s
    rw [List.forall_mem_cons]

/-- If equal transitions settle the same, one of them is enough. -/
theorem foldlM_distinctTransitions {f : Search → Transition → Except Failure Search}
    {done : Transition → Search → Prop} {ts : List Transition}
    (h : ∀ t ∈ ts, Settles (f · t) (done t))
    (hsame : ∀ {t u}, Automaton.sameTransition u t = true → done u = done t) (s : Search) :
    (Automaton.distinctTransitions ts).foldlM f s = ts.foldlM f s := by
  -- Transitions are looked at from the front, so the induction goes on at the end.
  induction ts using List.reverseRecOn with
  | nil => rfl
  | append_singleton ts t ih =>
    have ih := ih fun u hu => h u (List.mem_append_left _ hu)
    rw [Automaton.distinctTransitions_append_singleton, List.foldlM_append, ← ih]
    split
    · rename_i hknown
      rcases List.any_eq_true.1 hknown with ⟨u, hu, hut⟩
      have hlast := h t (List.mem_append_right _ (List.mem_singleton.2 rfl))
      have hsubset := (Automaton.distinctTransitions_sublist ts).subset
      have hkept : ∀ x ∈ Automaton.distinctTransitions ts, Settles (f · x) (done x) :=
        fun x hx => h x (List.mem_append_left _ (hsubset hx))
      cases hr : (Automaton.distinctTransitions ts).foldlM f s with
      | error failure => rfl
      | ok r =>
        have hdone : done t r := hsame hut ▸ (foldlM hkept).settles hr u hu
        calc
          Except.ok r = f r t := (hlast.idles hdone).symm
          _ = [t].foldlM f r := by rw [List.foldlM_cons, hlast.idles hdone]; rfl
    · rw [List.foldlM_append]

end Settles

/-! ## The parts of the search -/

namespace Traversal

open Automaton

section Parts

variable (limits : Limits) (a : Automaton) (g : Graph)

theorem visit_settles (v : Nat) (step : PathStep) (x : StateId) :
    Settles (visit limits a v step · x) fun s => s.visits.contains v x = true := by
  have hrecord : ∀ s w y, (record a s v x step).visits.contains w y = true ↔
      (w = v ∧ y = x) ∨ s.visits.contains w y = true := by
    intro s w y
    rw [Visits.contains, record, Visits.find_insert]
    split
    · rename_i hkey
      exact iff_of_true rfl (.inl hkey)
    · rename_i hkey
      exact (or_iff_right hkey).symm
  -- A visit either was made before or is recorded now.
  have hcases : ∀ {s t}, (visit limits a v step s x : Except Failure Search) = .ok t →
      s.visits.contains v x = true ∧ s = t ∨ t = record a s v x step := by
    intro s t hst
    unfold visit at hst
    split at hst
    · rename_i hknown
      exact .inl ⟨hknown, Except.ok.inj hst⟩
    · split at hst
      · cases hst
      · exact .inr (Except.ok.inj hst).symm
  constructor
  case remembers =>
    intro s t hst w y hy
    rcases hcases hst with ⟨_, rfl⟩ | rfl
    · exact hy
    · exact (hrecord s w y).2 (.inr hy)
  case settles =>
    intro s t hst
    rcases hcases hst with ⟨hknown, rfl⟩ | rfl
    · exact hknown
    · exact (hrecord s v x).2 (.inl ⟨rfl, rfl⟩)
  case stays =>
    exact fun hst hs => hst v x hs
  case idles =>
    exact fun hs => if_pos hs

variable (verdict : Transition → Nat → Incidence → Bool)

/-- Everything that the transition leads to from the pair by the edge was visited. -/
def Taken (p : Pair) (t : Transition) (e : Incidence) (s : Search) : Prop :=
  verdict t p.vertex e = true → ∀ w, g.that e = some w →
    ∀ x ∈ (a.epsilonClosure t.target).toList, s.visits.contains w x = true

theorem takeEdge_settles (p : Pair) (t : Transition) (e : Incidence) :
    Settles (takeEdge (tested verdict) limits a g p t · e) (Taken a g verdict p t e) := by
  unfold takeEdge Taken
  -- The test is asked without effects, so its answer is the same whenever it is asked.
  simp only [tested, pure_bind]
  cases verdict t p.vertex e with
  | false => exact Settles.pure.congr fun s => by simp
  | true =>
    cases g.that e with
    | none => exact Settles.pure.congr fun s => by simp
    | some w =>
      refine (Settles.foldlM fun x _ => visit_settles limits a w _ x).congr fun s => ?_
      simp

end Parts

theorem incidenceDirection_distinctTransitions (ts : List Transition) :
    incidenceDirection (distinctTransitions ts) = incidenceDirection ts := by
  have hall : ∀ d,
      ((distinctTransitions ts).map fun t => t.symbol.constraint.map (·.direction)).all
          (· == some d) =
        (ts.map fun t => t.symbol.constraint.map (·.direction)).all (· == some d) := by
    intro d
    rw [List.all_map, List.all_map]
    refine all_distinctTransitions ?_ ts
    intro t
    exact congrArg (· == some d) t.symbol.direction_unlabelled
  unfold incidenceDirection
  simp only [hall, List.isEmpty_map, isEmpty_distinctTransitions]

end Traversal

/-! ## Thinned automata -/

namespace Automaton.Thinned

open Traversal

variable {a b : Automaton} (h : Thinned a b)
include h

theorem visitsAlike : VisitsAlike b a where
  initial_eq := h.initial_eq
  missing_eq := funext h.missing_eq
  isFinal_eq := funext h.isFinal_eq
  epsilonClosure_eq := funext h.epsilonClosure_eq

section Verdicts

variable {verdict : Transition → Nat → Incidence → Bool}
  (hverdict : ∀ t, verdict t.unlabelled = verdict t)
include hverdict

theorem expand_eq (limits : Limits) (g : Graph) (p : Pair) (search : Search) :
    expand (tested verdict) limits b g incidenceDirection p search =
      expand (tested verdict) limits a g incidenceDirection p search := by
  have hconsuming : Unlabelled fun t => !t.symbol.isEpsilon :=
    fun t => congrArg not t.symbol.isEpsilon_unlabelled
  unfold expand
  dsimp only
  -- The same edges are tried, and repeated transitions are all that the two differ in.
  rw [h.outTransitions_eq, ← distinctTransitions_filter hconsuming,
    incidenceDirection_distinctTransitions, h.visitsAlike.takeEdge_eq]
  refine Settles.foldlM_distinctTransitions
    (fun t _ => .foldlM fun e _ => takeEdge_settles limits a g verdict p t e) ?_ search
  intro t u hsame
  have htest : verdict u = verdict t := by
    rw [← hverdict u, sameTransition_iff.1 hsame, hverdict]
  funext s
  simp only [Taken, htest, (ends_eq_of_same hsame).2]

theorem run_eq (limits : Limits) (g : Graph) (bound i : Nat) (search : Search) :
    run (tested verdict) limits b g incidenceDirection bound i search =
      run (tested verdict) limits a g incidenceDirection bound i search :=
  run_congr (h.expand_eq hverdict limits g) bound i search

theorem traverse_eq (limits : Limits) (g : Graph) (start : IdSet) :
    Traversal.traverse (tested verdict) limits b g start =
      Traversal.traverse (tested verdict) limits a g start := by
  have hclosed := h.withClosures
  unfold Traversal.traverse traverseVia
  simp only [hclosed.visitsAlike.seed_eq, hclosed.stateCount_eq, hclosed.run_eq hverdict]

end Verdicts

end Automaton.Thinned

/-! ## Evaluations -/

theorem Symbol.fits_unlabelled (g : Graph) (k : Symbol) (e : Incidence) :
    k.unlabelled.fits g e = k.fits g e := by
  cases k <;> rfl

namespace Evaluation

theorem fitsAt_unlabelled (g : Graph) (t : Transition) :
    fitsAt g t.unlabelled = fitsAt g t := by
  funext v e
  exact congrArg (g.this e == some v && ·) (t.symbol.fits_unlabelled g e)

variable {a b : Automaton} (h : a.Thinned b)
  (hplain : ∀ t ∈ a.transitions, t.symbol.isPlain = true) (scope : Scope) (start : IdSet)
include h hplain

theorem traverse_thinned : traverse scope b start = traverse scope a start := by
  have hplain' : ∀ t ∈ b.transitions, t.symbol.isPlain = true :=
    fun t ht => hplain t (h.mem_transitions ht)
  funext w
  rw [traverse_plain hplain', traverse_plain hplain,
    h.traverse_eq (fitsAt_unlabelled scope.graph)]

theorem reachable_thinned : reachable scope b start = reachable scope a start := by
  have htraverse := traverse_thinned h hplain scope start
  unfold traverse at htraverse
  unfold reachable Traversal.reachable
  rw [htraverse]

theorem pathSystem_thinned : pathSystem scope b start = pathSystem scope a start := by
  have htraverse := traverse_thinned h hplain scope start
  unfold traverse at htraverse
  unfold pathSystem pathSystemValue Traversal.pathSystem
  rw [htraverse, h.finals_eq]

end Evaluation

/-! ## Dropping parallel transitions -/

namespace Automaton

/-- The second automaton is what dropping parallel transitions leaves of the first one, and so many
were dropped.  With neither guards nor fixed edges, traversals are the same computations, errors
included. -/
structure Deduplicated (a : Automaton) (removed : Nat) (b : Automaton) : Prop where
  classes : Equivalence fun t u => sameTransition t u = true
  /-- Of every class the first transition is kept, and the others are not. -/
  kept : b.transitions.toList = firsts a.transitions.toList
  removed_add_size : removed + b.transitions.size = a.transitions.size
  states_eq : (b.states.map fun s => (s.id, s.serial, s.isFinal)) =
    a.states.map fun s => (s.id, s.serial, s.isFinal)
  finals_eq : b.finals = a.finals
  initial_eq : b.initial = a.initial
  fault_eq : b.fault = a.fault
  validate_eq : b.validate = a.validate
  out_eq {s : StateId} {state : State} : b.states[s]? = some state → state.out = b.leaving s
  inc_eq {s : StateId} {state : State} : b.states[s]? = some state → state.inc = b.entering s
  again : b.dedupTransitions = (0, b)
  reachable_eq : (∀ t ∈ a.transitions, t.symbol.isPlain = true) →
    ∀ (scope : Scope) (start : IdSet),
      Evaluation.reachable scope b start = Evaluation.reachable scope a start
  pathSystem_eq : (∀ t ∈ a.transitions, t.symbol.isPlain = true) →
    ∀ (scope : Scope) (start : IdSet),
      Evaluation.pathSystem scope b start = Evaluation.pathSystem scope a start

variable {a : Automaton}

theorem Intact.deduplicated (ha : a.Intact) :
    a.Deduplicated a.dedupTransitions.1 a.dedupTransitions.2 := by
  have h := ha.thinned
  exact
    { classes := sameTransition_equivalence
      kept := h.transitions_eq.trans (distinctTransitions_eq_firsts _)
      removed_add_size := ha.removed_add_size
      states_eq := h.states_eq
      finals_eq := h.finals_eq
      initial_eq := h.initial_eq
      fault_eq := h.fault_eq
      validate_eq := h.validate_eq
      out_eq := h.right.out_eq
      inc_eq := h.right.inc_eq
      again := h.dedupTransitions_eq
      reachable_eq := Evaluation.reachable_thinned h
      pathSystem_eq := Evaluation.pathSystem_thinned h }

theorem dedupTransitions_exact (ha : a.Made) :
    SymbolClasses ∧ a.Deduplicated a.dedupTransitions.1 a.dedupTransitions.2 :=
  ⟨symbolClasses, ha.intact.deduplicated⟩

/-- Of the three transitions the first two differ in their labels only. -/
def doubled : Automaton :=
  ((single (freely .outgoing) 0).1.addTransition 0 1
    (.step (.wildcard .outgoing))).addTransition 0 1 (freely .incoming)

theorem dedupTransitions_doubled :
    doubled.Made ∧
      (SymbolClasses ∧ doubled.Deduplicated doubled.dedupTransitions.1 doubled.dedupTransitions.2) ∧
      doubled.dedupTransitions.1 = 1 ∧ ∀ t ∈ doubled.transitions, t.symbol.isPlain = true := by
  have hmade : doubled.Made :=
    .addTransition 0 1 (freely .incoming)
      (.addTransition 0 1 (.step (.wildcard .outgoing)) (.single (freely .outgoing) 0))
  refine ⟨hmade, dedupTransitions_exact hmade, ?_, ?_⟩
  · decide +kernel
  · decide

end Automaton

end PathQuery
