import Mathlib.Data.Finset.Prod
import Mathlib.Data.Finset.Range
import PathQuery.Path.Traversal
import PathQuery.Proofs.Path.Product
import PathQuery.Proofs.Path.Visits

/-!
# The invariant of the search

Here edges are taken or refused by a fixed test, and the number of visited pairs has no bound.

* `Search.Sound`: every visited pair is recorded once and rightly;
* `Search.Level`: the visited pairs are in the order of their hops;
* `visit_yields`, `expand_yields`, `run_yields`, `seed_yields`: what the parts of the search keep
  and what they reach;
* `traverseVia_yields`: the pairs that the whole search visits, and their hops.
-/

namespace PathQuery

/-! ## Computations that cannot fail -/

/-- The computation succeeds, and its result has the property. -/
def Yields {α : Type} (x : Except Failure α) (property : α → Prop) : Prop :=
  ∃ r, x = .ok r ∧ property r

namespace Yields

variable {α γ : Type} {property : α → Prop}

theorem pure {r : α} (h : property r) : Yields (Pure.pure r) property :=
  ⟨r, rfl, h⟩

theorem mono {x : Except Failure α} {property' : α → Prop} (h : Yields x property)
    (himp : ∀ r, property r → property' r) : Yields x property' := by
  rcases h with ⟨r, hx, hr⟩
  exact ⟨r, hx, himp r hr⟩

theorem bind {x : Except Failure α} {f : α → Except Failure γ} {property' : γ → Prop}
    (h : Yields x property) (hf : ∀ r, property r → Yields (f r) property') :
    Yields (x >>= f) property' := by
  rcases h with ⟨r, rfl, hr⟩
  exact hf r hr

/-- A fold that keeps an invariant only goes up in an order, and what an element brings about
stays. -/
theorem foldlM {f : α → γ → Except Failure α} {xs : List γ} {le : α → α → Prop}
    (invariant : α → Prop) (done : γ → α → Prop) (hrefl : ∀ s, le s s)
    (htrans : ∀ {s t u}, le s t → le t u → le s u)
    (hdone : ∀ {x s t}, le s t → done x s → done x t)
    (hf : ∀ x ∈ xs, ∀ s, invariant s → Yields (f s x) fun t => invariant t ∧ le s t ∧ done x t)
    {s : α} (hs : invariant s) :
    Yields (xs.foldlM f s) fun t => invariant t ∧ le s t ∧ ∀ x ∈ xs, done x t := by
  induction xs generalizing s with
  | nil =>
    exact pure ⟨hs, hrefl s, fun x hx => absurd hx List.not_mem_nil⟩
  | cons x xs ih =>
    rw [List.foldlM_cons]
    refine (hf x List.mem_cons_self s hs).bind ?_
    rintro t ⟨ht, hst, hx⟩
    refine (ih (fun y hy => hf y (List.mem_cons_of_mem x hy)) ht).mono ?_
    rintro u ⟨hu, htu, hxs⟩
    refine ⟨hu, htrans hst htu, ?_⟩
    intro y hy
    rcases List.mem_cons.1 hy with rfl | hy
    · exact hdone htu hx
    · exact hxs y hy

end Yields

/-- There are no more pairs than vertices times states. -/
theorem size_le_of_nodup {queue : Array Pair} {vertices states : Nat}
    (hnodup : (queue.toList.map fun p => (p.vertex, p.state)).Nodup)
    (hvertex : ∀ {p : Pair}, p ∈ queue → p.vertex < vertices)
    (hstate : ∀ {p : Pair}, p ∈ queue → p.state < states) : queue.size ≤ vertices * states := by
  have hsubset : (queue.toList.map fun p => (p.vertex, p.state)).toFinset ⊆
      Finset.range vertices ×ˢ Finset.range states := by
    intro key hkey
    rcases List.mem_map.1 (List.mem_toFinset.1 hkey) with ⟨p, hp, rfl⟩
    have hp := Array.mem_toList_iff.1 hp
    rw [Finset.mem_product, Finset.mem_range, Finset.mem_range]
    exact ⟨hvertex hp, hstate hp⟩
  have hcard := Finset.card_le_card hsubset
  rwa [List.toFinset_card_of_nodup hnodup, List.length_map, Array.length_toList,
    Finset.card_product, Finset.card_range, Finset.card_range] at hcard

/-! ## The invariant -/

section Invariant

variable (g : Graph) (a : Automaton) (accepts : Transition → Incidence → Prop) (start : IdSet)
  (limits : Limits)

namespace Search

/-- Where a pair was reached from: nowhere if it is one that the search started with, else by one
hop from another visited pair. -/
def Origin (search : Search) (p : Pair) : Option ((Nat × StateId) × Incidence) → Prop
  | none => p.hops = 0 ∧ p.vertex ∈ start
  | some ((u, r), e) => ∃ k, p.hops = k + 1 ∧ ⟨u, r, k⟩ ∈ search.queue ∧
      Hop g a accepts u r e p.vertex p.state

structure Sound (search : Search) : Prop where
  nodup : (search.queue.toList.map fun p => (p.vertex, p.state)).Nodup
  find_of_mem {p : Pair} : p ∈ search.queue → ∃ origin,
    search.visits.find p.vertex p.state = some ⟨origin, p.hops⟩ ∧
      Origin g a accepts start search p origin
  mem_of_find {v : Nat} {s : StateId} {step : PathStep} :
    search.visits.find v s = some step → ⟨v, s, step.hops⟩ ∈ search.queue
  layer {p : Pair} : p ∈ search.queue → Layer g a accepts start p.hops p.vertex p.state
  within {p : Pair} {h : Nat} : p ∈ search.queue → limits.maxHops = some h → p.hops ≤ h
  accepted_iff {v : Nat} :
    v ∈ search.accepted ↔ ∃ p ∈ search.queue, p.vertex = v ∧ a.isFinal p.state = true

/-- Hops never decrease along the queue, and no pair has more than so many. -/
structure Level (search : Search) (hops : Nat) : Prop where
  sorted : search.queue.toList.Pairwise fun p q => p.hops ≤ q.hops
  le {p : Pair} : p ∈ search.queue → p.hops ≤ hops

/-- The second search has visited what the first one has, and then perhaps more. -/
def Extends (search search' : Search) : Prop :=
  search.queue.toList <+: search'.queue.toList

/-- The pair was visited, after at most so many hops. -/
def Has (search : Search) (v : Nat) (s : StateId) (hops : Nat) : Prop :=
  ∃ k ≤ hops, ⟨v, s, k⟩ ∈ search.queue

variable {g a accepts start limits} {search search' : Search}

theorem Extends.refl (search : Search) : Extends search search :=
  List.prefix_refl _

theorem Extends.trans {search'' : Search} (h : Extends search search')
    (h' : Extends search' search'') : Extends search search'' :=
  List.IsPrefix.trans h h'

theorem Extends.mem (h : Extends search search') {p : Pair} (hp : p ∈ search.queue) :
    p ∈ search'.queue :=
  Array.mem_toList_iff.1 (h.subset (Array.mem_toList_iff.2 hp))

theorem Extends.getElem? (h : Extends search search') {i : Nat} (hi : i < search.queue.size) :
    search'.queue[i]? = search.queue[i]? := by
  rcases h with ⟨rest, hrest⟩
  rw [← Array.getElem?_toList, ← hrest, List.getElem?_append_left hi, Array.getElem?_toList]

theorem Level.hops_le {hops : Nat} (h : Level search hops) {i j : Nat} {p q : Pair} (hij : i < j)
    (hp : search.queue[i]? = some p) (hq : search.queue[j]? = some q) : p.hops ≤ q.hops := by
  rcases Array.getElem?_eq_some_iff.1 hp with ⟨hi, rfl⟩
  rcases Array.getElem?_eq_some_iff.1 hq with ⟨hj, rfl⟩
  exact List.pairwise_iff_getElem.1 h.sorted i j hi hj hij

theorem Has.extends (h : Extends search search') {v : Nat} {s : StateId} {hops : Nat}
    (hhas : Has search v s hops) : Has search' v s hops := by
  rcases hhas with ⟨k, hk, hmem⟩
  exact ⟨k, hk, h.mem hmem⟩

theorem Origin.extends (h : Extends search search') {p : Pair}
    {origin : Option ((Nat × StateId) × Incidence)}
    (horigin : Origin g a accepts start search p origin) :
    Origin g a accepts start search' p origin := by
  cases origin with
  | none =>
    exact horigin
  | some origin =>
    rcases horigin with ⟨k, hk, hmem, hhop⟩
    exact ⟨k, hk, h.mem hmem, hhop⟩

theorem Sound.eq_of_key (hsound : Sound g a accepts start limits search) {p q : Pair}
    (hp : p ∈ search.queue) (hq : q ∈ search.queue) (hvertex : p.vertex = q.vertex)
    (hstate : p.state = q.state) : p = q := by
  rcases hsound.find_of_mem hp with ⟨_, hpfind, _⟩
  rcases hsound.find_of_mem hq with ⟨_, hqfind, _⟩
  rw [hvertex, hstate, hqfind, Option.some.injEq, PathStep.mk.injEq] at hpfind
  cases p
  cases q
  simp_all

/-! ## One visit -/

theorem extends_record (s : Search) (v : Nat) (x : StateId) (step : PathStep) :
    Extends s (Traversal.record a s v x step) := by
  rw [Extends, Traversal.record, Array.toList_push]
  exact List.prefix_append _ _

theorem mem_record {v : Nat} {x : StateId} {step : PathStep} {p : Pair} :
    p ∈ (Traversal.record a search v x step).queue ↔ p ∈ search.queue ∨ p = ⟨v, x, step.hops⟩ :=
  Array.mem_push

theorem Sound.record (hsound : Sound g a accepts start limits search) {v : Nat} {x : StateId}
    {step : PathStep} (hnew : search.visits.contains v x = false)
    (hlayer : Layer g a accepts start step.hops v x)
    (hwithin : ∀ h, limits.maxHops = some h → step.hops ≤ h)
    (horigin : Origin g a accepts start search ⟨v, x, step.hops⟩ step.origin) :
    Sound g a accepts start limits (Traversal.record a search v x step) := by
  have hextends := extends_record (a := a) search v x step
  have hunseen : ∀ p ∈ search.queue, ¬ (p.vertex = v ∧ p.state = x) := by
    rintro p hp ⟨rfl, rfl⟩
    rcases hsound.find_of_mem hp with ⟨origin, hfind, _⟩
    rw [Visits.contains, hfind] at hnew
    exact absurd hnew Bool.noConfusion
  constructor
  · rw [Traversal.record, Array.toList_push, List.map_append, List.nodup_append]
    refine ⟨hsound.nodup, List.nodup_singleton _, ?_⟩
    rintro key hkey key' hkey' rfl
    rw [List.map_singleton, List.mem_singleton] at hkey'
    subst hkey'
    rcases List.mem_map.1 hkey with ⟨p, hp, heq⟩
    exact hunseen p (Array.mem_toList_iff.1 hp) (Prod.mk.injEq _ _ _ _ ▸ heq)
  · intro p hp
    have hfind : (Traversal.record a search v x step).visits.find p.vertex p.state =
        if p.vertex = v ∧ p.state = x then some step
        else search.visits.find p.vertex p.state :=
      Visits.find_insert _ _ _ _ _ _
    rcases mem_record.1 hp with hp | rfl
    · rcases hsound.find_of_mem hp with ⟨origin, hold, horigin⟩
      rw [hfind, if_neg (hunseen p hp)]
      exact ⟨origin, hold, horigin.extends hextends⟩
    · rw [hfind, if_pos ⟨rfl, rfl⟩]
      exact ⟨step.origin, rfl, horigin.extends hextends⟩
  · intro w s step' hfind
    rw [Traversal.record, Visits.find_insert] at hfind
    split at hfind
    · rename_i hkey
      rcases hkey with ⟨rfl, rfl⟩
      rw [← Option.some.inj hfind]
      exact mem_record.2 (.inr rfl)
    · exact mem_record.2 (.inl (hsound.mem_of_find hfind))
  · intro p hp
    rcases mem_record.1 hp with hp | rfl
    · exact hsound.layer hp
    · exact hlayer
  · intro p h hp hmax
    rcases mem_record.1 hp with hp | rfl
    · exact hsound.within hp hmax
    · exact hwithin h hmax
  · intro w
    simp only [mem_record, or_and_right, exists_or, exists_eq_left]
    rw [Traversal.record, ← hsound.accepted_iff]
    by_cases hfinal : a.isFinal x = true
    · rw [if_pos hfinal, IdSet.mem_insert, or_comm, eq_comm]
      simp [hfinal]
    · rw [if_neg hfinal]
      simp [hfinal]

theorem Level.record {v : Nat} {x : StateId} {step : PathStep} (hlevel : Level search step.hops) :
    Level (Traversal.record a search v x step) step.hops := by
  constructor
  · rw [Traversal.record, Array.toList_push, List.pairwise_append]
    refine ⟨hlevel.sorted, List.pairwise_singleton _ _, ?_⟩
    intro p hp q hq
    rw [List.mem_singleton.1 hq]
    exact hlevel.le (Array.mem_toList_iff.1 hp)
  · intro p hp
    rcases mem_record.1 hp with hp | rfl
    · exact hlevel.le hp
    · exact Nat.le_refl _

end Search

end Invariant

/-! ## The parts of the search -/

section Parts

open Search

variable {g : Graph} {a : Automaton} {accepts : Transition → Incidence → Prop} {start : IdSet}
  {limits : Limits} {verdict : Transition → Nat → Incidence → Bool}
  {directionOf : List Transition → Direction}

/-- The test that is used accepts what the relation says, and no edge that a transition accepts is
kept from it. -/
structure Decides (g : Graph) (a : Automaton) (accepts : Transition → Incidence → Prop)
    (verdict : Transition → Nat → Incidence → Bool)
    (directionOf : List Transition → Direction) : Prop where
  verdict_iff {t : Transition} {v : Nat} {e : Incidence} : t ∈ a.transitions →
    t.symbol.isEpsilon = false → g.this e = some v → (verdict t v e = true ↔ accepts t e)
  admits {ts : List Transition} {t : Transition} {e : Incidence} : t ∈ ts →
    t.symbol.isEpsilon = false → accepts t e → (directionOf ts).admits e.normal = true

/-- What holds between two visits at a number of hops. -/
structure Steady (g : Graph) (a : Automaton) (accepts : Transition → Incidence → Prop)
    (start : IdSet) (limits : Limits) (hops : Nat) (search : Search) : Prop where
  sound : Sound g a accepts start limits search
  level : Level search hops

theorem visit_yields {search : Search} {v : Nat} {x : StateId} {step : PathStep}
    (hlimits : limits.maxVisited = none) (hsteady : Steady g a accepts start limits step.hops search)
    (hlayer : Layer g a accepts start step.hops v x)
    (hwithin : ∀ h, limits.maxHops = some h → step.hops ≤ h)
    (horigin : Origin g a accepts start search ⟨v, x, step.hops⟩ step.origin) :
    Yields (Traversal.visit limits a v step search x) fun search' =>
      Steady g a accepts start limits step.hops search' ∧ Extends search search' ∧
        Has search' v x step.hops := by
  unfold Traversal.visit
  cases hnew : search.visits.contains v x with
  | true =>
    rcases Visits.contains_eq_true.1 hnew with ⟨step', hfind⟩
    have hmem := hsteady.sound.mem_of_find hfind
    exact .pure ⟨hsteady, .refl search, step'.hops, hsteady.level.le hmem, hmem⟩
  | false =>
    simp only [Limits.exceededBy, hlimits, Option.filter_none]
    refine .pure ⟨⟨?_, ?_⟩, extends_record search v x step, step.hops, Nat.le_refl _, ?_⟩
    · exact hsteady.sound.record hnew hlayer hwithin horigin
    · exact hsteady.level.record
    · exact mem_record.2 (.inr rfl)

theorem visitAll_yields {search : Search} {v : Nat} {states : IdSet} {step : PathStep}
    (hlimits : limits.maxVisited = none) (hsteady : Steady g a accepts start limits step.hops search)
    (hlayer : ∀ x ∈ states, Layer g a accepts start step.hops v x)
    (hwithin : ∀ h, limits.maxHops = some h → step.hops ≤ h)
    (horigin : ∀ x ∈ states, Origin g a accepts start search ⟨v, x, step.hops⟩ step.origin) :
    Yields (Traversal.visitAll limits a v step search states) fun search' =>
      Steady g a accepts start limits step.hops search' ∧ Extends search search' ∧
        ∀ x ∈ states, Has search' v x step.hops := by
  -- The origin has to stay known while the states are visited.
  refine (Yields.foldlM (fun s => Steady g a accepts start limits step.hops s ∧ Extends search s)
    (fun x s => Has s v x step.hops) Extends.refl Extends.trans (fun h hhas => hhas.extends h) ?_
    ⟨hsteady, .refl search⟩).mono ?_
  · rintro x hx s ⟨hs, hext⟩
    refine (visit_yields hlimits hs (hlayer x hx) hwithin ((horigin x hx).extends hext)).mono ?_
    rintro t ⟨ht, hst, hhas⟩
    exact ⟨⟨ht, hext.trans hst⟩, hst, hhas⟩
  · rintro t ⟨⟨ht, hext⟩, _, hhas⟩
    exact ⟨ht, hext, hhas⟩

/-! ## Expansion -/

/-- The test as the search calls it. -/
abbrev tested (verdict : Transition → Nat → Incidence → Bool) (t : Transition) (v : Nat)
    (e : Incidence) : Except Failure Bool :=
  pure (verdict t v e)

/-- Everything that a transition leads to by an edge was visited. -/
def Reaches (g : Graph) (a : Automaton) (accepts : Transition → Incidence → Prop) (hops : Nat)
    (t : Transition) (e : Incidence) (search : Search) : Prop :=
  ∀ w x, accepts t e → g.that e = some w → Relation.ReflTransGen a.Bridged t.target x →
    Has search w x hops

theorem Reaches.extends {hops : Nat} {t : Transition} {e : Incidence} {search search' : Search}
    (hextends : Extends search search') (h : Reaches g a accepts hops t e search) :
    Reaches g a accepts hops t e search' := by
  intro w x haccepts hthat hx
  exact (h w x haccepts hthat hx).extends hextends

variable (hg : g.WellFormed) (ha : a.Indexed) (hlimits : limits.maxVisited = none)
  (hdecides : Decides g a accepts verdict directionOf)

include ha hlimits hdecides

theorem takeEdge_yields {search : Search} {p : Pair} {t : Transition} {e : Incidence}
    (hsteady : Steady g a accepts start limits (p.hops + 1) search) (hp : p ∈ search.queue)
    (hstops : limits.stopsAt p.hops = false) (ht : t ∈ a.transitions) (hsource : t.source = p.state)
    (hsymbol : t.symbol.isEpsilon = false) (he : g.this e = some p.vertex) :
    Yields (Traversal.takeEdge (tested verdict) limits a g p t search e) fun search' =>
      Steady g a accepts start limits (p.hops + 1) search' ∧ Extends search search' ∧
        Reaches g a accepts (p.hops + 1) t e search' := by
  have hclosure : ∀ x, x ∈ a.epsilonClosure t.target ↔ Relation.ReflTransGen a.Bridged t.target x :=
    fun x => Automaton.mem_epsilonClosure ha (ha.target_lt ht)
  unfold Traversal.takeEdge
  simp only [tested, pure_bind]
  cases hverdict : verdict t p.vertex e with
  | false =>
    refine .pure ⟨hsteady, .refl search, ?_⟩
    intro w x haccepts
    rw [(hdecides.verdict_iff ht hsymbol he).2 haccepts] at hverdict
    exact absurd hverdict Bool.noConfusion
  | true =>
    have haccepts := (hdecides.verdict_iff ht hsymbol he).1 hverdict
    cases hthat : g.that e with
    | none =>
      refine .pure ⟨hsteady, .refl search, ?_⟩
      intro w x _ hw
      rw [hthat] at hw
      exact absurd hw nofun
    | some w =>
      have hhop : ∀ x ∈ a.epsilonClosure t.target, Hop g a accepts p.vertex p.state e w x := by
        intro x hx
        exact ⟨he, hthat, t, ht, hsource, hsymbol, haccepts, (hclosure x).1 hx⟩
      refine (visitAll_yields hlimits hsteady ?_ ?_ ?_).mono ?_
      · intro x hx
        exact (hsteady.sound.layer hp).hop (hhop x hx)
      · intro h hmax
        rw [Limits.stopsAt, hmax] at hstops
        have hlt : ¬ h ≤ p.hops := by
          simpa using hstops
        exact Nat.lt_of_not_le hlt
      · intro x hx
        exact ⟨p.hops, rfl, hp, hhop x hx⟩
      · rintro search' ⟨hsteady', hextends, hhas⟩
        refine ⟨hsteady', hextends, ?_⟩
        intro w' x _ hw' hx
        rw [hthat] at hw'
        rw [← Option.some.inj hw']
        exact hhas x ((hclosure x).2 hx)

include hg

theorem expand_yields {search : Search} {p : Pair}
    (hsteady : Steady g a accepts start limits (p.hops + 1) search) (hp : p ∈ search.queue)
    (hstops : limits.stopsAt p.hops = false) :
    Yields (Traversal.expand (tested verdict) limits a g directionOf p search) fun search' =>
      Steady g a accepts start limits (p.hops + 1) search' ∧ Extends search search' ∧
        ∀ e w x, Hop g a accepts p.vertex p.state e w x → Has search' w x (p.hops + 1) := by
  let consuming := (a.outTransitions p.state).filter fun t => !t.symbol.isEpsilon
  let incidences := g.incidences p.vertex (directionOf consuming)
  have hconsuming : ∀ {t}, t ∈ consuming ↔
      (t ∈ a.transitions ∧ t.source = p.state) ∧ t.symbol.isEpsilon = false := by
    intro t
    simp [consuming, ha.mem_outTransitions]
  refine (Yields.foldlM
    (fun s => Steady g a accepts start limits (p.hops + 1) s ∧ Extends search s)
    (fun t s => ∀ e ∈ incidences, Reaches g a accepts (p.hops + 1) t e s) Extends.refl
    Extends.trans (fun hext h e he => (h e he).extends hext) ?_ ⟨hsteady, .refl search⟩).mono ?_
  · rintro t ht s ⟨hs, hext⟩
    rcases hconsuming.1 ht with ⟨⟨hmem, hsource⟩, hsymbol⟩
    refine (Yields.foldlM
      (fun s' => Steady g a accepts start limits (p.hops + 1) s' ∧ Extends s s')
      (fun e s' => Reaches g a accepts (p.hops + 1) t e s') Extends.refl Extends.trans
      Reaches.extends ?_ ⟨hs, .refl s⟩).mono ?_
    · rintro e he s' ⟨hs', hext'⟩
      have hthis := ((hg.mem_incidences).1 he).1
      refine (takeEdge_yields ha hlimits hdecides hs' ((hext.trans hext').mem hp) hstops hmem
        hsource hsymbol hthis).mono ?_
      rintro s'' ⟨hs'', hext'', hreaches⟩
      exact ⟨⟨hs'', hext'.trans hext''⟩, hext'', hreaches⟩
    · rintro s' ⟨⟨hs', hext'⟩, _, hreaches⟩
      exact ⟨⟨hs', hext.trans hext'⟩, hext', hreaches⟩
  · rintro search' ⟨⟨hsteady', hextends⟩, _, hreaches⟩
    refine ⟨hsteady', hextends, ?_⟩
    rintro e w x ⟨hthis, hthat, t, ht, hsource, hsymbol, haccepts, hx⟩
    have hmem : t ∈ consuming := hconsuming.2 ⟨⟨ht, hsource⟩, hsymbol⟩
    have hincident : e ∈ incidences :=
      hg.mem_incidences.2 ⟨hthis, hdecides.admits hmem hsymbol haccepts⟩
    exact hreaches t hmem e hincident w x haccepts hthat hx

/-! ## The whole queue -/

/-- Everything that is one hop away from the pairs before a place in the queue was visited. -/
def Settled (g : Graph) (a : Automaton) (accepts : Transition → Incidence → Prop)
    (limits : Limits) (i : Nat) (search : Search) : Prop :=
  ∀ {j : Nat} {p : Pair}, j < i → search.queue[j]? = some p → limits.stopsAt p.hops = false →
    ∀ e w x, Hop g a accepts p.vertex p.state e w x → Has search w x (p.hops + 1)

omit hlimits hdecides in
theorem size_queue_le {search : Search} (hsound : Sound g a accepts start limits search) :
    search.queue.size ≤ g.vertexCount * a.stateCount :=
  size_le_of_nodup hsound.nodup (fun hp => (hsound.layer hp).vertex_lt hg)
    fun hp => (hsound.layer hp).state_lt ha

omit ha hlimits hdecides hg in
/-- What was reached by hops from a place in the queue bounds the hops from the next place on. -/
theorem Search.Level.next {search : Search} {i : Nat} {p q : Pair} (h : Level search (p.hops + 1))
    (hp : search.queue[i]? = some p) (hq : search.queue[i + 1]? = some q) :
    Level search (q.hops + 1) := by
  refine ⟨h.sorted, ?_⟩
  intro r hr
  have hpq := h.hops_le (Nat.lt_succ_self i) hp hq
  have hrp := h.le hr
  omega

theorem run_yields (bound : Nat) {i : Nat} {search : Search}
    (hsound : Sound g a accepts start limits search)
    (hlevel : ∀ {p : Pair}, search.queue[i]? = some p → Level search (p.hops + 1))
    (hsettled : Settled g a accepts limits i search)
    (hbound : g.vertexCount * a.stateCount ≤ bound + i) :
    Yields (Traversal.run (tested verdict) limits a g directionOf bound i search) fun search' =>
      Sound g a accepts start limits search' ∧ Extends search search' ∧
        Settled g a accepts limits search'.queue.size search' := by
  induction bound generalizing i search with
  | zero =>
    have hsize := size_queue_le hg ha hsound
    refine .pure ⟨hsound, .refl search, ?_⟩
    intro j p hj
    exact hsettled (by omega)
  | succ bound ih =>
    unfold Traversal.run
    cases hp : search.queue[i]? with
    | none =>
      have hsize := Array.getElem?_eq_none_iff.1 hp
      refine .pure ⟨hsound, .refl search, ?_⟩
      intro j p hj
      exact hsettled (by omega)
    | some p =>
      have hi : i < search.queue.size := (Array.getElem?_eq_some_iff.1 hp).1
      cases hstops : limits.stopsAt p.hops with
      | true =>
        simp only [hstops, if_true]
        apply ih hsound
        · intro q hq
          exact (hlevel hp).next hp hq
        · intro j q hj hq hq'
          rcases Nat.lt_succ_iff_lt_or_eq.1 hj with hj | rfl
          · exact hsettled hj hq hq'
          · rw [hp, Option.some.injEq] at hq
            rw [← hq, hstops] at hq'
            exact absurd hq' Bool.noConfusion
        · omega
      | false =>
        simp only [hstops, Bool.false_eq_true, if_false]
        have hmem := Array.mem_of_getElem? hp
        refine (expand_yields hg ha hlimits hdecides ⟨hsound, hlevel hp⟩ hmem hstops).bind ?_
        rintro search' ⟨⟨hsound', hlevel'⟩, hextends, hhas⟩
        have hp' := (hextends.getElem? hi).trans hp
        refine (ih hsound' ?_ ?_ ?_).mono ?_
        · intro q hq
          exact hlevel'.next hp' hq
        · intro j q hj hq hq'
          rcases Nat.lt_succ_iff_lt_or_eq.1 hj with hj | rfl
          · rw [hextends.getElem? (Nat.lt_trans hj hi)] at hq
            intro e w x hhop
            exact (hsettled hj hq hq' e w x hhop).extends hextends
          · rw [hp', Option.some.injEq] at hq
            rw [← hq]
            exact hhas
        · omega
        · rintro search'' ⟨hsound'', hextends', hsettled'⟩
          exact ⟨hsound'', hextends.trans hextends', hsettled'⟩

/-! ## The whole search -/

omit ha hlimits hdecides hg in
theorem sound_empty : Sound g a accepts start limits {} where
  nodup := List.nodup_nil
  find_of_mem h := absurd h (Array.not_mem_empty _)
  mem_of_find h := absurd h nofun
  layer h := absurd h (Array.not_mem_empty _)
  within h := absurd h (Array.not_mem_empty _)
  accepted_iff := by simp

variable (accepts) in
omit hg hdecides in
theorem seed_yields :
    Yields (Traversal.seed limits a g start) fun search =>
      Steady g a accepts start limits 0 search ∧ ∀ v x, v ∈ start → v < g.vertexCount →
        Relation.ReflTransGen a.Bridged a.initial x → Has search v x 0 := by
  have hinitial : ∀ x, x ∈ a.epsilonClosure a.initial ↔
      Relation.ReflTransGen a.Bridged a.initial x :=
    fun x => Automaton.mem_epsilonClosure ha ha.initial_lt
  have hstates : (Traversal.initialStates a : Except Failure IdSet) =
      pure (a.epsilonClosure a.initial) := by
    simp [Traversal.initialStates, Automaton.missing, ha.initial_lt]
  have hmem : ∀ {v}, v ∈ start.toList.filter g.containsVertex ↔ v ∈ start ∧ v < g.vertexCount := by
    intro v
    rw [List.mem_filter, Graph.containsVertex_iff]
    rfl
  have hempty : Steady g a accepts start limits 0 {} :=
    ⟨sound_empty, List.Pairwise.nil, fun h => absurd h (Array.not_mem_empty _)⟩
  unfold Traversal.seed
  refine (Yields.foldlM (Steady g a accepts start limits 0)
    (fun v s => ∀ x, Relation.ReflTransGen a.Bridged a.initial x → Has s v x 0) Extends.refl
    Extends.trans (fun hext h x hx => (h x hx).extends hext) ?_ hempty).mono ?_
  · intro v hv s hs
    rcases hmem.1 hv with ⟨hstart, hlt⟩
    rw [hstates, pure_bind]
    refine (visitAll_yields hlimits hs ?_ ?_ ?_).mono ?_
    · intro x hx
      exact .seed hstart hlt ((hinitial x).1 hx)
    · intro h _
      exact Nat.zero_le h
    · intro x _
      exact ⟨rfl, hstart⟩
    · rintro t ⟨ht, hext, hhas⟩
      exact ⟨ht, hext, fun x hx => hhas x ((hinitial x).2 hx)⟩
  · rintro search ⟨hsteady, _, hhas⟩
    exact ⟨hsteady, fun v x hv hlt hx => hhas v (hmem.2 ⟨hv, hlt⟩) x hx⟩

/-- A finished search: what it visited is right, and it visited everything that is reached within
the bound on hops, after no more hops than needed. -/
structure Explored (g : Graph) (a : Automaton) (accepts : Transition → Incidence → Prop)
    (start : IdSet) (limits : Limits) (search : Search) : Prop where
  sound : Sound g a accepts start limits search
  has_of_layer {k v : Nat} {s : StateId} : Layer g a accepts start k v s →
    (∀ h, limits.maxHops = some h → k ≤ h) → Has search v s k

omit ha hlimits hdecides hg in
theorem Explored.of_settled {search : Search} (hsound : Sound g a accepts start limits search)
    (hseed : ∀ v x, v ∈ start → v < g.vertexCount →
      Relation.ReflTransGen a.Bridged a.initial x → Has search v x 0)
    (hsettled : Settled g a accepts limits search.queue.size search) :
    Explored g a accepts start limits search := by
  refine ⟨hsound, ?_⟩
  intro k v s hlayer
  induction hlayer with
  | seed hv hlt hs =>
    intro _
    exact hseed _ _ hv hlt hs
  | hop _ hhop ih =>
    rename_i k v w s x e _
    intro hwithin
    rcases ih fun h hmax => Nat.le_of_succ_le (hwithin h hmax) with ⟨l, hl, hmem⟩
    have hstops : limits.stopsAt l = false := by
      rw [Limits.stopsAt]
      cases hmax : limits.maxHops with
      | none => rfl
      | some h =>
        have := hwithin h hmax
        simp only [Option.any_some, decide_eq_false_iff_not]
        omega
    rcases Array.getElem?_of_mem hmem with ⟨j, hj⟩
    rcases hsettled (Array.getElem?_eq_some_iff.1 hj).1 hj hstops e w x hhop with ⟨l', hl', hmem'⟩
    have hl'' : l' ≤ l + 1 := hl'
    exact ⟨l', by omega, hmem'⟩

theorem traverseVia_yields :
    Yields (Traversal.traverseVia (tested verdict) directionOf limits a g start)
      (Explored g a accepts start limits) := by
  have ha' := ha.withClosures
  have hdecides' : Decides g a.withClosures accepts verdict directionOf :=
    ⟨hdecides.verdict_iff, hdecides.admits⟩
  unfold Traversal.traverseVia
  refine (seed_yields accepts ha' hlimits).bind ?_
  rintro search ⟨hsteady, hseed⟩
  refine (run_yields hg ha' hlimits hdecides' _ hsteady.sound ?_ ?_ ?_).mono ?_
  · intro p hp
    refine ⟨hsteady.level.sorted, ?_⟩
    intro q hq
    exact Nat.le_trans (hsteady.level.le hq) (Nat.zero_le _)
  · intro j p hj
    exact absurd hj (Nat.not_lt_zero j)
  · exact Nat.le_refl _
  · rintro search' ⟨hsound, hextends, hsettled⟩
    have hexplored := Explored.of_settled hsound
      (fun v x hv hlt hx => (hseed v x hv hlt hx).extends hextends) hsettled
    refine ⟨?_, ?_⟩
    · exact
        { nodup := hsound.nodup
          find_of_mem := hsound.find_of_mem
          mem_of_find := hsound.mem_of_find
          layer := fun hp => layer_withClosures.1 (hsound.layer hp)
          within := hsound.within
          accepted_iff := hsound.accepted_iff }
    · intro k v s hlayer
      exact hexplored.has_of_layer (layer_withClosures.2 hlayer)

end Parts

end PathQuery
