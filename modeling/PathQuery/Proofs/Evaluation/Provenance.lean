import PathQuery.Proofs.Automaton.Serials
import PathQuery.Proofs.Evaluation.Cache
import PathQuery.Proofs.Evaluation.Guards

/-!
# Where values come from

What evaluations make is numbered from a supply that only goes forward.  One contract says how an
evaluation keeps what is known of values by their numbers.

* `Supply.Precedes`: nothing was put back in between;
* `Provenance`: something that is known of values and of the serials of automata, at every point of
  the supply, and stays known as the supply goes on;
* `Workspace.Traced`: it is known of all values in the workspace;
* `Eval.Traces`: the contract;
* `Traces.bind`, `Traces.fresh` and so on: one rule for each way to build an evaluation.
-/

namespace PathQuery

/-! ## Supplies -/

structure Supply.Precedes (s s' : Supply) : Prop where
  serials_le : s.serials ≤ s'.serials
  handles_le : s.handles ≤ s'.handles
  calls_le : s.calls ≤ s'.calls

namespace Supply.Precedes

theorem refl (s : Supply) : s.Precedes s :=
  ⟨Nat.le_refl _, Nat.le_refl _, Nat.le_refl _⟩

theorem trans {s s' s'' : Supply} (h : s.Precedes s') (h' : s'.Precedes s'') : s.Precedes s'' :=
  ⟨Nat.le_trans h.serials_le h'.serials_le, Nat.le_trans h.handles_le h'.handles_le,
    Nat.le_trans h.calls_le h'.calls_le⟩

end Supply.Precedes

/-- After the given serials come some that were drawn one after the other, the first one not before
the first bound. -/
def DrawnBetween (given : List Nat) (first next : Nat) (l : List Nat) : Prop :=
  ∃ n k, first ≤ n ∧ n + k ≤ next ∧ l = given ++ List.range' n k

namespace DrawnBetween

variable {given l : List Nat} {first first' next : Nat}

theorem since (h : DrawnBetween given first next l) (hle : first' ≤ first) :
    DrawnBetween given first' next l := by
  rcases h with ⟨n, k, hfirst, hnext, hl⟩
  exact ⟨n, k, Nat.le_trans hle hfirst, hnext, hl⟩

theorem append (h : DrawnBetween [] first next l) (given : List Nat) :
    DrawnBetween given first next (given ++ l) := by
  rcases h with ⟨n, k, hfirst, hnext, rfl⟩
  exact ⟨n, k, hfirst, hnext, rfl⟩

end DrawnBetween

/-! ## What is known of values -/

/-- What is known at a point of the supply. -/
structure Provenance where
  /-- The nodes of whose values it is known. -/
  region : NodeId → Prop
  value : Supply → Value → Prop
  /-- Of the serials of an automaton, by the next serial. -/
  serials : Nat → List Nat → Prop
  value_mono {s s' : Supply} {v : Value} : s.Precedes s' → value s v → value s' v
  serials_mono {n n' : Nat} {l : List Nat} : n ≤ n' → serials n l → serials n' l
  serials_nil (n : Nat) : serials n []
  serials_draw {n : Nat} {l : List Nat} (k : Nat) : serials n l →
    serials (n + k) (l ++ List.range' n k)
  simple {s : Supply} {v : Value} : v.IsSimple → value s v
  /-- An automaton is published under the next handle. -/
  automaton {s : Supply} {a : Automaton} : serials s.serials a.serials →
    value { s with handles := s.handles + 1 } (.automaton s.handles a)
  pathSystem {s : Supply} (ps : PathSystem) :
    value { s with handles := s.handles + 1 } (.pathSystem s.handles ps)
  serials_of_automaton {s : Supply} {h : Nat} {a : Automaton} : value s (.automaton h a) →
    serials s.serials a.serials

namespace Provenance

variable (P : Provenance)

/-- Serials that are drawn later follow the earlier ones. -/
theorem serials_of_drawn {n n' : Nat} {given l : List Nat} (hgiven : P.serials n given)
    (hl : DrawnBetween given n n' l) : P.serials n' l := by
  rcases hl with ⟨m, k, hle, hle', rfl⟩
  exact P.serials_mono hle' (P.serials_draw k (P.serials_mono hle hgiven))

theorem serials_of_toAutomaton {s : Supply} {v : Value} {a : Automaton} {context : String}
    (hv : P.value s v) (h : v.toAutomaton context = .ok a) : P.serials s.serials a.serials := by
  cases v with
  | automaton handle b =>
    cases h
    exact P.serials_of_automaton hv
  | _ => cases h

end Provenance

/-! ## Workspaces -/

variable {P : Provenance} {s t : Supply} {w : Workspace}

/-- At the point where the supply is, which is not before the given one. -/
structure Workspace.Traced (P : Provenance) (s : Supply) (w : Workspace) : Prop where
  precedes : s.Precedes w.supply
  memos {n : NodeId} {v : Value} : P.region n → w.cache.memo n = .done v → P.value w.supply v
  bindings {frame : String × Value} : frame ∈ w.bindings.frames → P.value w.supply frame.2

namespace Workspace.Traced

theorem since (h : w.Traced P t) (hs : s.Precedes t) : w.Traced P s :=
  ⟨hs.trans h.precedes, h.memos, h.bindings⟩

theorem now (h : w.Traced P s) : w.Traced P w.supply :=
  ⟨.refl _, h.memos, h.bindings⟩

theorem later (h : w.Traced P s) (hs : w.supply.Precedes t) :
    Traced P w.supply { w with supply := t } :=
  ⟨hs, fun hn hdone => P.value_mono hs (h.memos hn hdone),
    fun hframe => P.value_mono hs (h.bindings hframe)⟩

theorem cached (h : w.Traced P s) {cache : Cache}
    (hcache : ∀ n v, P.region n → cache.memo n = .done v → P.value w.supply v) :
    Traced P w.supply { w with cache } :=
  ⟨.refl _, hcache _ _, h.bindings⟩

theorem extend (h : w.Traced P s) (id : NodeId) :
    Traced P w.supply { w with cache := w.cache.extend id } :=
  h.cached fun n _ hn hdone => h.memos hn ((Cache.memo_extend _ id n).symm.trans hdone)

/-- The memo of one node has changed. -/
theorem change (h : w.Traced P s) {cache : Cache} {id : NodeId} {m : Memo}
    (hcache : ∀ n, cache.memo n = if n = id then m else w.cache.memo n)
    (hm : ∀ v, P.region id → m = .done v → P.value w.supply v) :
    Traced P w.supply { w with cache } := by
  refine h.cached fun n v hn hdone => ?_
  rw [hcache] at hdone
  split at hdone
  next hsame => exact hm v (hsame ▸ hn) hdone
  next => exact h.memos hn hdone

theorem entered (h : w.Traced P s) (nodes : SyntaxGraph) (predicate : NodeId) (x : String)
    (e : Incidence) : (w.entered nodes predicate x e).Traced P w.supply := by
  refine ⟨.refl _, ?_, ?_⟩
  · intro n v hn hdone
    simp only [Workspace.entered, Cache.resetFrom, Cache.memo_forgetAll] at hdone
    split at hdone
    · cases hdone
    · exact h.memos hn hdone
  · intro frame hframe
    rcases List.mem_cons.1 hframe with rfl | hframe
    · exact P.simple (.edge e)
    · exact h.bindings hframe

theorem left (h : w.Traced P s) : w.left.Traced P s :=
  ⟨h.precedes, h.memos, fun hframe => h.bindings (List.mem_of_mem_tail hframe)⟩

theorem bound (h : w.Traced P s) {x : String} {v : Value} (hx : w.bindings.get x = some v) :
    P.value w.supply v := by
  rcases List.lookup_eq_some_iff.1 hx with ⟨before, after, hframes, _⟩
  have hframe : (x, v) ∈ w.bindings.frames :=
    hframes ▸ List.mem_append_right _ List.mem_cons_self
  exact h.bindings hframe

end Workspace.Traced

/-! ## Evaluations -/

namespace Eval

/-- From any point of the supply on that is not before the given one. -/
def Traces {α : Type} (P : Provenance) (s : Supply) (post : Supply → α → Prop) (x : Eval α) :
    Prop :=
  ∀ w : Workspace, w.Traced P s →
    x.Ensures w (fun r w' => w'.Traced P w.supply ∧ post w'.supply r)
      fun _ w' => w'.Traced P w.supply

namespace Traces

variable {α γ : Type} {post : Supply → α → Prop} {post' : Supply → γ → Prop} {x : Eval α}

theorem later (h : Traces P s post x) (hs : s.Precedes t) : Traces P t post x :=
  fun w hw => h w (hw.since hs)

theorem mono {post' : Supply → α → Prop} (h : Traces P s post x)
    (hpost : ∀ t r, s.Precedes t → post t r → post' t r) : Traces P s post' x :=
  fun w hw => (h w hw).mono
    (fun r _ hr => ⟨hr.1, hpost _ r (hw.precedes.trans hr.1.precedes) hr.2⟩) fun _ _ hfails => hfails

theorem any (h : Traces P s post x) : Traces P s (fun _ _ => True) x :=
  h.mono fun _ _ _ _ => trivial

theorem pure {r : α} (h : ∀ t, s.Precedes t → post t r) : Traces P s post (Pure.pure r) :=
  fun _ hw => ⟨hw.now, h _ hw.precedes⟩

theorem throw (failure : Failure) : Traces P s post (throwThe Failure failure : Eval α) :=
  fun _ hw => hw.now

theorem ofExcept {r : Except EvalError α} (h : ∀ a, r = .ok a → ∀ t, s.Precedes t → post t a) :
    Traces P s post (Eval.ofExcept r) := by
  cases r with
  | ok a => exact pure (h a rfl)
  | error e => exact throw (.error e)

/-- What follows may use what was known when it starts. -/
theorem bind {f : α → Eval γ} (hx : Traces P s post x)
    (hf : ∀ t r, s.Precedes t → post t r → Traces P t post' (f r)) :
    Traces P s post' (x >>= f) := by
  intro w hw
  refine (hx w hw).bind fun r w' hr => ?_
  have hrest := hf w'.supply r (hw.precedes.trans hr.1.precedes) hr.2 w' hr.1.now
  exact hrest.mono (fun _ _ h => ⟨h.1.since hr.1.precedes, h.2⟩) fun _ _ h =>
    h.since hr.1.precedes

theorem foldlM {f : α → γ → Eval α} {xs : List γ} {r : α}
    (hpost : ∀ t, s.Precedes t → post t r)
    (hf : ∀ t r a, s.Precedes t → post t r → Traces P t post (f r a))
    (hmono : ∀ {t t' r}, t.Precedes t' → post t r → post t' r) :
    Traces P s post (xs.foldlM f r) := by
  -- Every round starts where the supply is then.
  induction xs generalizing s r with
  | nil => exact pure hpost
  | cons a xs ih =>
    rw [List.foldlM_cons]
    refine (hf s r a (.refl s) (hpost s (.refl s))).bind fun t r' ht hr' => ?_
    exact ih (fun _ ht' => hmono ht' hr') fun t' r a ht' => hf t' r a (ht.trans ht')

theorem mapM {f : γ → Eval Value} {xs : List γ} {known : Prop}
    (hf : ∀ a ∈ xs, ∀ t, Traces P t (fun t v => known → P.value t v) (f a)) :
    Traces P s (fun t vs => known → ∀ v ∈ vs, P.value t v) (xs.mapM f) := by
  induction xs generalizing s with
  | nil =>
    rw [List.mapM_nil]
    exact pure fun _ _ _ v hv => absurd hv List.not_mem_nil
  | cons a xs ih =>
    rw [List.mapM_cons]
    refine (hf a List.mem_cons_self s).bind fun t v _ hv => ?_
    refine (ih fun b hb => hf b (List.mem_cons_of_mem a hb)).bind fun t' vs ht' hvs => ?_
    refine pure fun t'' ht'' hknown u hu => ?_
    -- The first value was made earlier, and the supply has only gone on since.
    rcases List.mem_cons.1 hu with rfl | hu
    · exact P.value_mono (ht'.trans ht'') (hv hknown)
    · exact P.value_mono ht'' (hvs hknown u hu)

/-! ### Numbers from the supply -/

theorem fresh_drawn {x : Fresh Automaton} {given : List Nat} (hx : x.Draws given) :
    Traces P s (fun t a => DrawnBetween given s.serials t.serials a.serials) (Eval.fresh x) := by
  intro w hw
  rcases hx w.supply.serials with ⟨k, hnext, hserials⟩
  have hlater : w.supply.serials ≤ (x w.supply.serials).2 := hnext ▸ Nat.le_add_right _ k
  refine Ensures.fresh ⟨hw.later ⟨hlater, Nat.le_refl _, Nat.le_refl _⟩, ?_⟩
  exact ⟨w.supply.serials, k, hw.precedes.serials_le, Nat.le_of_eq hnext.symm, hserials⟩

theorem fresh {x : Fresh Automaton} {given : List Nat} (hx : x.Draws given)
    (hgiven : P.serials s.serials given) :
    Traces P s (fun t a => P.serials t.serials a.serials) (Eval.fresh x) :=
  (fresh_drawn hx).mono fun _ _ _ ha => P.serials_of_drawn hgiven ha

theorem callNumber : Traces P s (fun _ _ => True) Eval.callNumber :=
  fun _ hw => ⟨hw.later ⟨Nat.le_refl _, Nat.le_refl _, Nat.le_succ _⟩, trivial⟩

/-- Traversals do nothing else than their tests. -/
def tracing (P : Provenance) (s : Supply) :
    Simulation (ExceptT Failure (StateM Workspace)) (ExceptT Failure (StateM Workspace)) where
  rel x _ := Traces P s (fun _ _ => True) x
  pure _ := pure fun _ _ => trivial
  throw := throw
  bind hx hf := hx.bind fun _ r ht _ => (hf r).later ht

end Traces

end Eval
end PathQuery
