import PathQuery.Evaluation.Cache
import PathQuery.Proofs.Path.Visits
import PathQuery.Proofs.Reachable
import PathQuery.Proofs.Syntax.Dependence

/-!
# What the cache knows after each operation

One lemma for each operation: which memo a node has afterwards, and how often its rule was started.
A reset forgets the values below its root and nothing else, and does not touch what is being
computed unless it is asked to.

* `memo_start`, `memo_finish`, `memo_abort`, `evaluations_start`: the operations on one entry;
* `mem_below_iff`: a reset visits exactly the nodes below its root;
* `Cache.ResetTo`, `reset_exact`: what both resets do to every entry.
-/

namespace PathQuery
namespace Cache

variable (cache : Cache)

/-- Entries are filled up as the rows of visited pairs are. -/
@[simp] theorem memo_extend (node x : NodeId) : (cache.extend node).memo x = cache.memo x :=
  congrArg CacheEntry.memo (Visits.getD_extend cache.entries node .blank x)

/-- A change of one entry of the extended cache is a change of its memo. -/
theorem memo_modify (node : NodeId) (f : CacheEntry → CacheEntry) {memo : Memo}
    (hf : ∀ entry, (f entry).memo = memo) (x : NodeId) :
    (⟨(cache.extend node).entries.modify node f⟩ : Cache).memo x =
      if x = node then memo else cache.memo x := by
  rw [Cache.memo, entry, Array.getElem?_modify]
  by_cases hx : x = node
  · subst hx
    have hlt : x < (cache.extend x).entries.size := Visits.lt_size_extend cache.entries x .blank
    rw [if_pos rfl, if_pos rfl, Array.getElem?_eq_getElem hlt]
    exact hf _
  · rw [if_neg (Ne.symm hx), if_neg hx]
    exact cache.memo_extend node x

theorem memo_setMemo (node : NodeId) (memo : Memo) (x : NodeId) :
    (cache.setMemo node memo).memo x = if x = node then memo else cache.memo x :=
  cache.memo_modify node (fun entry => { entry with memo }) (fun _ => rfl) x

theorem memo_start (node x : NodeId) :
    (cache.start node).memo x = if x = node then .inProgress else cache.memo x :=
  cache.memo_modify node (fun entry => ⟨.inProgress, entry.evaluations + 1⟩) (fun _ => rfl) x

theorem memo_finish (node : NodeId) (value : Value) (x : NodeId) :
    (cache.finish node value).memo x = if x = node then .done value else cache.memo x :=
  cache.memo_setMemo node _ x

theorem memo_abort (node x : NodeId) :
    (cache.abort node).memo x = if x = node then .uninitialized else cache.memo x :=
  cache.memo_setMemo node _ x

theorem memo_empty (x : NodeId) : ({} : Cache).memo x = .uninitialized :=
  rfl

/-- What is known has an entry, so the cache is not extended for it. -/
theorem extend_of_memo_eq_done {node : NodeId} {value : Value} (h : cache.memo node = .done value) :
    cache.extend node = cache := by
  have hlt : node < cache.size := by
    by_contra hle
    rw [memo, entry, Array.getElem?_eq_none (Nat.le_of_not_lt hle)] at h
    cases h
  rw [extend, Nat.sub_eq_zero_of_le hlt, Array.replicate_zero, Array.append_empty]

/-! ## Counting -/

@[simp] theorem evaluations_extend (node x : NodeId) :
    (cache.extend node).evaluations x = cache.evaluations x :=
  congrArg CacheEntry.evaluations (Visits.getD_extend cache.entries node .blank x)

/-- A change of one entry that does not touch its counter. -/
theorem evaluations_modify (node : NodeId) {f : CacheEntry → CacheEntry}
    (hf : ∀ entry, (f entry).evaluations = entry.evaluations) (x : NodeId) :
    (⟨cache.entries.modify node f⟩ : Cache).evaluations x = cache.evaluations x := by
  simp only [evaluations, entry, Array.getElem?_modify]
  split
  · cases cache.entries[x]? with
    | none => rfl
    | some entry => exact hf entry
  · rfl

theorem evaluations_setMemo (node : NodeId) (memo : Memo) (x : NodeId) :
    (cache.setMemo node memo).evaluations x = cache.evaluations x := by
  have hmodify := (cache.extend node).evaluations_modify node
    (f := fun entry => { entry with memo }) (fun _ => rfl) x
  exact hmodify.trans (cache.evaluations_extend node x)

theorem evaluations_start (node x : NodeId) :
    (cache.start node).evaluations x = cache.evaluations x + if x = node then 1 else 0 := by
  rw [← cache.evaluations_extend node x, evaluations, entry, start, Array.getElem?_modify]
  by_cases hx : x = node
  · subst hx
    have hlt : x < (cache.extend x).entries.size := Visits.lt_size_extend cache.entries x .blank
    rw [if_pos rfl, if_pos rfl, evaluations, entry, Array.getElem?_eq_getElem hlt]
    rfl
  · rw [if_neg (Ne.symm hx), if_neg hx]
    rfl

theorem evaluations_finish (node : NodeId) (value : Value) (x : NodeId) :
    (cache.finish node value).evaluations x = cache.evaluations x :=
  cache.evaluations_setMemo node _ x

/-! ## Forgetting -/

theorem entry_forget (p : Memo → Bool) (node x : NodeId) :
    (forget p cache node).entry x =
      if x = node ∧ p (cache.memo x) = true then ⟨.uninitialized, cache.evaluations x⟩
      else cache.entry x := by
  unfold evaluations memo entry forget
  rw [Array.getElem?_modify]
  by_cases hx : x = node
  · subst hx
    cases cache.entries[x]? with
    | none => simp [CacheEntry.blank]
    | some entry =>
      by_cases hp : p entry.memo = true
      · simp [hp]
      · simp [hp]
  · rw [if_neg (Ne.symm hx), if_neg fun h => hx h.1]

/-- An entry that was forgotten before may be met again. -/
theorem entry_forgetAll (p : Memo → Bool) (nodes : List NodeId) (x : NodeId) :
    (nodes.foldl (forget p) cache).entry x =
      if x ∈ nodes ∧ p (cache.memo x) = true then ⟨.uninitialized, cache.evaluations x⟩
      else cache.entry x := by
  induction nodes generalizing cache with
  | nil => simp
  | cons node nodes ih =>
    rw [List.foldl_cons, ih, memo, evaluations, entry_forget]
    by_cases hp : x = node ∧ p (cache.memo x) = true
    · simp [hp.1, hp.1 ▸ hp.2]
    · rw [if_neg hp]
      have hmem : (x ∈ node :: nodes ∧ p (cache.memo x) = true) ↔
          x ∈ nodes ∧ p (cache.memo x) = true := by
        rw [List.mem_cons, or_and_right, or_iff_right hp]
      exact (if_congr hmem rfl rfl).symm

theorem memo_forgetAll (p : Memo → Bool) (nodes : List NodeId) (x : NodeId) :
    (nodes.foldl (forget p) cache).memo x =
      if x ∈ nodes ∧ p (cache.memo x) = true then .uninitialized else cache.memo x := by
  rw [memo, entry_forgetAll]
  split <;> rfl

theorem evaluations_forgetAll (p : Memo → Bool) (nodes : List NodeId) (x : NodeId) :
    (nodes.foldl (forget p) cache).evaluations x = cache.evaluations x := by
  rw [evaluations, entry_forgetAll]
  split <;> rfl

theorem size_forgetAll (p : Memo → Bool) (nodes : List NodeId) :
    (nodes.foldl (forget p) cache).size = cache.size := by
  induction nodes generalizing cache with
  | nil => rfl
  | cons node nodes ih =>
    rw [List.foldl_cons, ih]
    exact Array.size_modify

theorem evaluations_resetFrom (nodes : SyntaxGraph) (root x : NodeId) :
    (cache.resetFrom nodes root).evaluations x = cache.evaluations x :=
  cache.evaluations_forgetAll _ _ x

variable {nodes : SyntaxGraph} {root x : NodeId}

theorem lt_size_of_childrenOf (h : nodes.childrenOf x ≠ []) : x < nodes.size := by
  unfold SyntaxGraph.childrenOf at h
  split at h
  · exact SyntaxGraph.lt_size_of_get ‹_›
  · exact absurd rfl h

theorem mem_below_iff : x ∈ below nodes root ↔ nodes.Below root x :=
  mem_reachableFrom (fun _ => lt_size_of_childrenOf) (Nat.le_succ nodes.size)

/-- A search in any greater number of rounds finds the same. -/
theorem reachableFrom_eq_below {rounds : Nat} (h : nodes.size ≤ rounds) :
    reachableFrom nodes.childrenOf rounds root = below nodes root :=
  (reachableFrom_eq_of_le (fun _ => lt_size_of_childrenOf) h).trans
    (reachableFrom_eq_of_le (fun _ => lt_size_of_childrenOf) (Nat.le_succ nodes.size)).symm

theorem memo_resetFrom_eq_inProgress :
    (cache.resetFrom nodes root).memo x = .inProgress ↔ cache.memo x = .inProgress := by
  rw [resetFrom, memo_forgetAll]
  split
  · rename_i h
    constructor
    · intro heq
      cases heq
    · intro heq
      rw [heq] at h
      exact absurd h.2 Bool.false_ne_true
  · rfl

theorem memo_resetFrom_of_below (hx : nodes.Below root x) (value : Value) :
    (cache.resetFrom nodes root).memo x ≠ .done value := by
  rw [resetFrom, memo_forgetAll]
  split
  · intro heq
    cases heq
  · rename_i h
    intro heq
    rw [heq] at h
    exact h ⟨mem_below_iff.2 hx, rfl⟩

theorem memo_resetFrom_of_not_below (hx : ¬ nodes.Below root x) :
    (cache.resetFrom nodes root).memo x = cache.memo x := by
  rw [resetFrom, memo_forgetAll, if_neg fun h => hx (mem_below_iff.1 h.1)]

/-! ## What a reset is -/

/-- The later cache knows nothing of the nodes below the root whose memos may go, and all else as
before. -/
structure ResetTo (cache : Cache) (nodes : SyntaxGraph) (root : NodeId) (mayGo : Memo → Prop)
    (later : Cache) : Prop where
  forgotten {x : NodeId} : nodes.Below root x → mayGo (cache.memo x) →
    later.memo x = .uninitialized
  kept {x : NodeId} : ¬ (nodes.Below root x ∧ mayGo (cache.memo x)) →
    later.entry x = cache.entry x
  evaluations_eq (x : NodeId) : later.evaluations x = cache.evaluations x
  size_eq : later.size = cache.size

theorem resetTo_forgetAll (nodes : SyntaxGraph) (root : NodeId) {p : Memo → Bool}
    {mayGo : Memo → Prop} (hp : ∀ memo, p memo = true ↔ mayGo memo) :
    cache.ResetTo nodes root mayGo ((below nodes root).foldl (forget p) cache) where
  forgotten hbelow hgo := by
    rw [memo_forgetAll, if_pos ⟨mem_below_iff.2 hbelow, (hp _).2 hgo⟩]
  kept hstays := by
    rw [entry_forgetAll, if_neg fun h => hstays ⟨mem_below_iff.1 h.1, (hp _).1 h.2⟩]
  evaluations_eq := cache.evaluations_forgetAll p _
  size_eq := cache.size_forgetAll p _

/-- The search for the nodes below the root has come to its end by itself, and the two resets differ
only in what is being computed. -/
theorem reset_exact (nodes : SyntaxGraph) (root : NodeId) :
    (∀ rounds, nodes.size ≤ rounds →
      reachableFrom nodes.childrenOf rounds root = below nodes root) ∧
    cache.ResetTo nodes root (· ≠ .inProgress) (cache.resetFrom nodes root) ∧
    cache.ResetTo nodes root (fun _ => True) (cache.resetAllFrom nodes root) := by
  refine ⟨fun _ => reachableFrom_eq_below, ?_, ?_⟩
  · refine cache.resetTo_forgetAll nodes root fun memo => ?_
    cases memo <;> simp [Memo.isInProgress]
  · exact cache.resetTo_forgetAll nodes root fun _ => iff_of_true rfl trivial

end Cache
end PathQuery
