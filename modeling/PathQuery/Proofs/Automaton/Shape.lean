import PathQuery.Proofs.Automaton.WellFormed

/-!
# What the operations build

Runs of an automaton depend on its transitions, its initial state and its final states only.  For
every operation this says what these are in terms of the operands'.

* `Automaton.Shape`: an automaton is well formed and has the given states, links and final states;
* `Shape.foldl`: what a list of building steps adds and drops;
* `epsilon_shape`, `single_shape`, `concat_shape`, `union_shape`, `iterate_shape`,
  `optional_shape`, `copy_shape`, `reverse_shape`: the operations.
-/

namespace PathQuery
namespace Automaton

structure Shape (a : Automaton) (count : Nat) (initial : StateId) (links : Transition → Prop)
    (final : StateId → Prop) : Prop where
  wellFormed : a.WellFormed
  stateCount_eq : a.stateCount = count
  initial_eq : a.initial = initial
  mem_iff (t : Transition) : t ∈ a.transitions ↔ links t
  final_iff (s : StateId) : a.isFinal s = true ↔ final s

theorem WellFormed.shape {a : Automaton} (ha : a.WellFormed) :
    a.Shape a.stateCount a.initial (· ∈ a.transitions) (a.isFinal · = true) :=
  ⟨ha, rfl, rfl, fun _ => Iff.rfl, fun _ => Iff.rfl⟩

namespace Shape

variable {a b : Automaton} {count : Nat} {initial : StateId} {links : Transition → Prop}
  {final : StateId → Prop}

theorem congr (h : a.Shape count initial links final) {links' : Transition → Prop}
    {final' : StateId → Prop} (hlinks : ∀ t, links t ↔ links' t)
    (hfinal : ∀ s, final s ↔ final' s) : a.Shape count initial links' final' where
  wellFormed := h.wellFormed
  stateCount_eq := h.stateCount_eq
  initial_eq := h.initial_eq
  mem_iff t := (h.mem_iff t).trans (hlinks t)
  final_iff s := (h.final_iff s).trans (hfinal s)

/-! ## Building steps -/

theorem pushState (h : a.Shape count initial links final) (n : Nat) :
    (a.pushState n).Shape (count + 1) initial links final where
  wellFormed := h.wellFormed.pushState n
  stateCount_eq := by rw [stateCount_pushState, h.stateCount_eq]
  initial_eq := h.initial_eq
  mem_iff := h.mem_iff
  final_iff s := by rw [isFinal_pushState, h.final_iff]

theorem setFinal_true (h : a.Shape count initial links final) {s : StateId} (hs : s < count) :
    (a.setFinal s true).Shape count initial links (fun x => x = s ∨ final x) where
  wellFormed := h.wellFormed.setFinal s true
  stateCount_eq := by rw [stateCount_setFinal, h.stateCount_eq]
  initial_eq := h.initial_eq
  mem_iff := h.mem_iff
  final_iff x := by
    rw [isFinal_setFinal a s x (h.stateCount_eq ▸ hs), ← h.final_iff]
    by_cases hx : x = s
    · simp [hx]
    · simp [hx]

theorem setFinal_false (h : a.Shape count initial links final) {s : StateId} (hs : s < count) :
    (a.setFinal s false).Shape count initial links (fun x => final x ∧ ¬ x = s) where
  wellFormed := h.wellFormed.setFinal s false
  stateCount_eq := by rw [stateCount_setFinal, h.stateCount_eq]
  initial_eq := h.initial_eq
  mem_iff := h.mem_iff
  final_iff x := by
    rw [isFinal_setFinal a s x (h.stateCount_eq ▸ hs), ← h.final_iff]
    by_cases hx : x = s
    · simp [hx]
    · simp [hx]

theorem setInitial (h : a.Shape count initial links final) {s : StateId} (hs : s < count) :
    (a.setInitial s).Shape count s links final where
  wellFormed := h.wellFormed.setInitial (h.stateCount_eq ▸ hs)
  stateCount_eq := h.stateCount_eq
  initial_eq := rfl
  mem_iff := h.mem_iff
  final_iff := h.final_iff

theorem addTransition (h : a.Shape count initial links final) {source target : StateId}
    {symbol : Symbol} (hsource : source < count) (htarget : target < count)
    (hloop : symbol.isEpsilon = true → source ≠ target) :
    (a.addTransition source target symbol).Shape count initial
      (fun t => links t ∨ t = ⟨source, target, symbol⟩) final := by
  have hcount := h.stateCount_eq
  have haddable : a.Addable source target symbol :=
    ⟨hcount ▸ hsource, hcount ▸ htarget, hloop⟩
  rw [addTransition_eq_link haddable]
  constructor
  · exact h.wellFormed.link haddable
  · rw [stateCount_link, hcount]
  · exact h.initial_eq
  · intro t
    rw [transitions_link, Array.mem_push, h.mem_iff]
  · intro s
    rw [isFinal_link, h.final_iff]

theorem foldl {α : Type} {step : Automaton → α → Automaton} (new : α → Transition → Prop)
    (dropped : α → StateId → Prop) {xs : List α}
    (hstep : ∀ x ∈ xs, ∀ {b : Automaton} {links : Transition → Prop} {final : StateId → Prop},
      b.Shape count initial links final →
      (step b x).Shape count initial (fun t => links t ∨ new x t)
        (fun s => final s ∧ ¬ dropped x s))
    (h : a.Shape count initial links final) :
    (xs.foldl step a).Shape count initial (fun t => links t ∨ ∃ x ∈ xs, new x t)
      (fun s => final s ∧ ∀ x ∈ xs, ¬ dropped x s) := by
  induction xs generalizing a links final with
  | nil =>
    refine h.congr ?_ ?_
    · simp
    · simp
  | cons x xs ih =>
    have hx := hstep x List.mem_cons_self h
    have hxs := ih (fun y hy => hstep y (List.mem_cons_of_mem x hy)) hx
    refine hxs.congr ?_ ?_
    · intro t
      simp only [List.exists_mem_cons_iff, or_assoc]
    · intro s
      simp only [List.forall_mem_cons, and_assoc]

/-- The case in which every step adds one link. -/
theorem foldl_addTransition {α : Type} (link : α → Transition) {xs : List α}
    (hsource : ∀ x ∈ xs, (link x).source < count) (htarget : ∀ x ∈ xs, (link x).target < count)
    (hloop : ∀ x ∈ xs, (link x).symbol.isEpsilon = true → (link x).source ≠ (link x).target)
    (h : a.Shape count initial links final) :
    (xs.foldl (fun b x => b.addTransition (link x).source (link x).target (link x).symbol)
      a).Shape count initial (fun t => links t ∨ ∃ x ∈ xs, t = link x) final := by
  refine (foldl (fun x t => t = link x) (fun _ _ => False) ?_ h).congr (fun _ => Iff.rfl) ?_
  · intro x hx b links final hb
    refine (hb.addTransition (hsource x hx) (htarget x hx) (hloop x hx)).congr ?_ ?_
    · exact fun _ => Iff.rfl
    · simp
  · simp

end Shape

theorem absorb_shape {a b : Automaton} (ha : a.WellFormed) (hb : b.WellFormed) :
    (a.absorb b).Shape (a.stateCount + b.stateCount) a.initial
      (fun t => t ∈ a.transitions ∨ ∃ u ∈ b.transitions, shiftTransition a.stateCount u = t)
      (fun s => if s < a.stateCount then a.isFinal s = true
        else b.isFinal (s - a.stateCount) = true) where
  wellFormed := ha.absorb hb
  stateCount_eq := stateCount_absorb a b
  initial_eq := rfl
  mem_iff _ := mem_transitions_absorb a b
  final_iff s := by
    rw [isFinal_absorb]
    split
    · rfl
    · rfl

/-! ## Regular operations -/

section Operations

variable {a b : Automaton}

theorem shiftFault_eq_none (hb : b.WellFormed) : a.shiftFault b = none := by
  simp [shiftFault, hb.initial_lt]

/-- The links of two automata side by side. -/
def Beside (a b : Automaton) (t : Transition) : Prop :=
  t ∈ a.transitions ∨ ∃ u ∈ b.transitions, shiftTransition a.stateCount u = t

/-- An empty transition. -/
abbrev bridge (source target : StateId) : Transition :=
  ⟨source, target, .epsilon⟩

theorem concat_shape (ha : a.WellFormed) (hb : b.WellFormed) :
    (a.concat b).Shape (a.stateCount + b.stateCount) a.initial
      (fun t => Beside a b t ∨
        ∃ f, a.isFinal f = true ∧ t = bridge f (b.initial + a.stateCount))
      (fun s => a.stateCount ≤ s ∧ b.isFinal (s - a.stateCount) = true) := by
  simp only [concat, shiftFault_eq_none hb]
  have hbase := absorb_shape ha hb
  have hfinal : ∀ f ∈ a.finals, f < a.stateCount := by
    intro f hf
    exact isFinal_lt (ha.mem_finals.1 hf)
  refine (hbase.foldl (fun f t => t = bridge f (b.initial + a.stateCount)) (fun f s => s = f)
    ?_).congr ?_ ?_
  · intro f hf c links final hc
    have hf := hfinal f hf
    have hb := hb.initial_lt
    apply (hc.setFinal_false _).addTransition
    · lia
    · lia
    · intro _ heq
      lia
    · lia
  · intro t
    simp only [ha.mem_finals, Beside]
  · intro s
    constructor
    · rintro ⟨hs, hdropped⟩
      by_cases hlt : s < a.stateCount
      · rw [if_pos hlt] at hs
        exact absurd rfl (hdropped s (ha.mem_finals.2 hs))
      · rw [if_neg hlt] at hs
        exact ⟨Nat.le_of_not_lt hlt, hs⟩
    · rintro ⟨hle, hs⟩
      refine ⟨?_, ?_⟩
      · rw [if_neg (Nat.not_lt.2 hle)]
        exact hs
      · intro f hf heq
        have := hfinal f hf
        lia

theorem union_apply (a b : Automaton) (n : Nat) :
    (a.union b n).1 =
      ((a.shiftFault b).elim
        ((((a.absorb b).pushState n).addTransition (a.absorb b).stateCount a.initial
          .epsilon).addTransition (a.absorb b).stateCount (b.initial + a.stateCount) .epsilon)
        (((a.absorb b).pushState n).addTransition (a.absorb b).stateCount a.initial
          .epsilon).reject).setInitial (a.absorb b).stateCount := by
  unfold union
  cases a.shiftFault b with
  | none => rfl
  | some fault => rfl

theorem union_shape (ha : a.WellFormed) (hb : b.WellFormed) (n : Nat) :
    (a.union b n).1.Shape (a.stateCount + b.stateCount + 1) (a.stateCount + b.stateCount)
      (fun t => Beside a b t ∨ t = bridge (a.stateCount + b.stateCount) a.initial ∨
        t = bridge (a.stateCount + b.stateCount) (b.initial + a.stateCount))
      (fun s => if s < a.stateCount then a.isFinal s = true
        else b.isFinal (s - a.stateCount) = true) := by
  have hai := ha.initial_lt
  have hbi := hb.initial_lt
  rw [union_apply, shiftFault_eq_none hb, Option.elim_none, stateCount_absorb]
  refine ((((absorb_shape ha hb).pushState n).addTransition ?_ ?_ ?_).addTransition
    ?_ ?_ ?_).setInitial ?_ |>.congr ?_ (fun _ => Iff.rfl)
  · exact Nat.lt_succ_self _
  · lia
  · intro _ heq
    lia
  · exact Nat.lt_succ_self _
  · lia
  · intro _ heq
    lia
  · exact Nat.lt_succ_self _
  · intro t
    exact or_assoc

/-- The links between the parts of an iterated automaton, whose two fresh states are given. -/
inductive IterationLink (a : Automaton) (allowEmpty : Bool) (start last : StateId) :
    Transition → Prop where
  | enter : IterationLink a allowEmpty start last (bridge start a.initial)
  | leave {f : StateId} :
      a.isFinal f = true → IterationLink a allowEmpty start last (bridge f last)
  | again {f : StateId} :
      a.isFinal f = true → f ≠ a.initial → IterationLink a allowEmpty start last (bridge f a.initial)
  | skip : allowEmpty = true → IterationLink a allowEmpty start last (bridge start last)

/-- The automaton with the two fresh states of an iteration and the link to its initial state. -/
def entered (a : Automaton) (n : Nat) : Automaton :=
  ((a.pushState n).pushState (n + 1)).addTransition a.stateCount a.initial .epsilon

/-- Makes a final state lead to the fresh final state, and back to the initial one. -/
def linkAgain (a : Automaton) (last : StateId) (b : Automaton) (f : StateId) : Automaton :=
  let b := (b.setFinal f false).addTransition f last .epsilon
  if f != a.initial then b.addTransition f a.initial .epsilon else b

theorem iterate_apply (a : Automaton) (allowEmpty : Bool) (n : Nat) :
    (a.iterate allowEmpty n).1 =
      (((if allowEmpty then
          (a.finals.foldl (a.linkAgain (a.stateCount + 1)) (a.entered n)).addTransition
            a.stateCount (a.stateCount + 1) .epsilon
        else a.finals.foldl (a.linkAgain (a.stateCount + 1)) (a.entered n)).setFinal
          (a.stateCount + 1) true).setInitial a.stateCount) := by
  have hcount : (a.pushState n).stateCount = a.stateCount + 1 := stateCount_pushState a n
  rw [entered, ← hcount]
  rfl

theorem entered_shape (ha : a.WellFormed) (n : Nat) :
    (a.entered n).Shape (a.stateCount + 2) a.initial
      (fun t => t ∈ a.transitions ∨ t = bridge a.stateCount a.initial) (a.isFinal · = true) := by
  have hi := ha.initial_lt
  refine ((ha.shape.pushState n).pushState (n + 1)).addTransition ?_ ?_ ?_
  · lia
  · lia
  · intro _ heq
    lia

theorem linkAgain_shape {b : Automaton} {links : Transition → Prop} {final : StateId → Prop}
    {f : StateId} (ha : a.WellFormed) (hf : a.isFinal f = true)
    (hb : b.Shape (a.stateCount + 2) a.initial links final) :
    (a.linkAgain (a.stateCount + 1) b f).Shape (a.stateCount + 2) a.initial
      (fun t => links t ∨ t = bridge f (a.stateCount + 1) ∨
        (f ≠ a.initial ∧ t = bridge f a.initial))
      (fun s => final s ∧ ¬ s = f) := by
  have hi := ha.initial_lt
  have hflt := isFinal_lt hf
  have hout : ((b.setFinal f false).addTransition f (a.stateCount + 1) .epsilon).Shape
      (a.stateCount + 2) a.initial (fun t => links t ∨ t = bridge f (a.stateCount + 1))
      (fun s => final s ∧ ¬ s = f) := by
    refine (hb.setFinal_false ?_).addTransition ?_ ?_ ?_
    · lia
    · lia
    · lia
    · intro _ heq
      lia
  by_cases hfi : f = a.initial
  · simp only [linkAgain, hfi, bne_self_eq_false, Bool.false_eq_true, if_false]
    refine (hfi ▸ hout).congr ?_ (fun _ => Iff.rfl)
    simp
  · simp only [linkAgain, bne_iff_ne.2 hfi, if_true]
    refine (hout.addTransition ?_ ?_ (fun _ => hfi)).congr ?_ (fun _ => Iff.rfl)
    · lia
    · lia
    · intro t
      simp only [hfi, or_assoc, not_false_eq_true, ne_eq, true_and]

theorem iterationLink_true_iff {start last : StateId} {t : Transition} :
    IterationLink a true start last t ↔
      IterationLink a false start last t ∨ t = bridge start last := by
  constructor
  · intro h
    cases h with
    | enter => exact .inl .enter
    | leave hf => exact .inl (.leave hf)
    | again hf hfi => exact .inl (.again hf hfi)
    | skip _ => exact .inr rfl
  · rintro (h | rfl)
    · cases h with
      | enter => exact .enter
      | leave hf => exact .leave hf
      | again hf hfi => exact .again hf hfi
      | skip h => exact absurd h Bool.false_ne_true
    · exact .skip rfl

/-- When all final states are linked, none is final any more. -/
theorem linked_shape (ha : a.WellFormed) (n : Nat) :
    (a.finals.foldl (a.linkAgain (a.stateCount + 1)) (a.entered n)).Shape (a.stateCount + 2)
      a.initial
      (fun t => t ∈ a.transitions ∨ IterationLink a false a.stateCount (a.stateCount + 1) t)
      (fun _ => False) := by
  refine Shape.congr (Shape.foldl
    (fun f t => t = bridge f (a.stateCount + 1) ∨ (f ≠ a.initial ∧ t = bridge f a.initial))
    (fun f s => s = f) ?_ (entered_shape ha n)) ?_ ?_
  · intro f hf b links final hb
    exact linkAgain_shape ha (ha.mem_finals.1 hf) hb
  · intro t
    constructor
    · rintro ((h | rfl) | ⟨f, hf, rfl | ⟨hfi, rfl⟩⟩)
      · exact .inl h
      · exact .inr .enter
      · exact .inr (.leave (ha.mem_finals.1 hf))
      · exact .inr (.again (ha.mem_finals.1 hf) hfi)
    · rintro (h | h)
      · exact .inl (.inl h)
      · cases h with
        | enter => exact .inl (.inr rfl)
        | leave hf => exact .inr ⟨_, ha.mem_finals.2 hf, .inl rfl⟩
        | again hf hfi => exact .inr ⟨_, ha.mem_finals.2 hf, .inr ⟨hfi, rfl⟩⟩
        | skip h => exact absurd h Bool.false_ne_true
  · intro s
    rw [iff_false]
    rintro ⟨hs, hdropped⟩
    exact hdropped s (ha.mem_finals.2 hs) rfl

theorem iterate_shape (ha : a.WellFormed) (allowEmpty : Bool) (n : Nat) :
    (a.iterate allowEmpty n).1.Shape (a.stateCount + 2) a.stateCount
      (fun t => t ∈ a.transitions ∨
        IterationLink a allowEmpty a.stateCount (a.stateCount + 1) t)
      (fun s => s = a.stateCount + 1) := by
  have hlinked := linked_shape ha n
  have hfinal : ∀ s, (s = a.stateCount + 1 ∨ False) ↔ s = a.stateCount + 1 :=
    fun s => iff_of_eq (or_false _)
  rw [iterate_apply]
  cases allowEmpty with
  | true =>
    refine (((hlinked.addTransition ?_ ?_ ?_).setFinal_true ?_).setInitial ?_).congr ?_ hfinal
    · lia
    · lia
    · intro _ heq
      lia
    · lia
    · lia
    · intro t
      rw [iterationLink_true_iff, or_assoc]
  | false =>
    refine ((hlinked.setFinal_true ?_).setInitial ?_).congr (fun _ => Iff.rfl) hfinal
    · lia
    · lia

theorem optional_shape (ha : a.WellFormed) (n : Nat) :
    (a.optional n).1.Shape (a.stateCount + 1) a.stateCount
      (fun t => t ∈ a.transitions ∨ t = bridge a.stateCount a.initial)
      (fun s => s = a.stateCount ∨ a.isFinal s = true) := by
  have hoptional : (a.optional n).1 =
      (((a.pushState n).addTransition a.stateCount a.initial .epsilon).setFinal a.stateCount
        true).setInitial a.stateCount := rfl
  have hi := ha.initial_lt
  rw [hoptional]
  refine (((ha.shape.pushState n).addTransition ?_ ?_ ?_).setFinal_true ?_).setInitial ?_
  · exact Nat.lt_succ_self _
  · lia
  · intro _ heq
    lia
  · exact Nat.lt_succ_self _
  · exact Nat.lt_succ_self _

/-! ## Copies and the automata to start from -/

/-- The automaton with fresh serials, the first of which is given. -/
def renumbered (a : Automaton) (n : Nat) : Automaton :=
  { a with
    states := a.states.mapIdx fun i state => { state with serial := n + i }
    closures := none }

theorem getElem?_states_renumbered (a : Automaton) (n : Nat) (s : StateId) :
    (a.renumbered n).states[s]? =
      a.states[s]?.map fun state => { state with serial := n + s } := by
  simp [renumbered]

theorem renumbered_shape (ha : a.WellFormed) (n : Nat) :
    (a.renumbered n).Shape a.stateCount a.initial (· ∈ a.transitions) (a.isFinal · = true) := by
  have hcount : (a.renumbered n).stateCount = a.stateCount := by
    simp [stateCount, renumbered]
  have hold : ∀ {s : StateId} {state : State}, (a.renumbered n).states[s]? = some state →
      ∃ old, a.states[s]? = some old ∧ old.id = state.id ∧ old.out = state.out ∧
        old.inc = state.inc := by
    intro s state h
    rw [getElem?_states_renumbered] at h
    rcases Option.map_eq_some_iff.1 h with ⟨old, hs, rfl⟩
    exact ⟨old, hs, rfl, rfl, rfl⟩
  refine ⟨?_, hcount, rfl, fun _ => Iff.rfl, ?_⟩
  · refine ⟨⟨?_, ?_, ?_, ?_, ?_, ?_⟩, ?_, ?_, ?_⟩
    · intro s state h
      rcases hold h with ⟨old, hs, hid, _, _⟩
      rw [← hid]
      exact ha.id_eq hs
    · intro s state h
      rcases hold h with ⟨old, hs, _, hout, _⟩
      rw [← hout]
      exact ha.out_eq hs
    · intro t ht
      rw [hcount]
      exact ha.source_lt ht
    · intro t ht
      rw [hcount]
      exact ha.target_lt ht
    · rw [hcount]
      exact ha.initial_lt
    · intro table h
      simp [renumbered] at h
    · intro s state h
      rcases hold h with ⟨old, hs, _, _, hinc⟩
      rw [← hinc]
      exact ha.inc_eq hs
    · intro t ht
      exact ha.no_loop ht
    · exact ha.fault_eq
  · intro s
    rw [isFinal, isFinal, getElem?_states_renumbered, Option.any_map]

theorem copy_shape (ha : a.WellFormed) (register : Bool) (n : Nat) :
    (a.copy register n).1.Shape a.stateCount a.initial (· ∈ a.transitions)
      (a.isFinal · = true) := by
  cases register with
  | true =>
    exact renumbered_shape ha n
  | false =>
    exact { ha.shape with wellFormed := { ha with closures_eq := nofun } }

theorem epsilon_shape (n : Nat) :
    (epsilon n).1.Shape 1 0 (fun _ => False) (fun s => s = 0) := by
  have hepsilon : (epsilon n).1 =
      { states := #[⟨0, n, true, [], []⟩], transitions := #[], initial := 0 } := rfl
  have hstate : ∀ {s : StateId} {state : State},
      (#[⟨0, n, true, [], []⟩] : Array State)[s]? = some state →
      s = 0 ∧ state = ⟨0, n, true, [], []⟩ := by
    intro s state h
    rcases s with _ | s
    · exact ⟨rfl, (Option.some.inj h).symm⟩
    · simp at h
  rw [hepsilon]
  refine ⟨?_, rfl, rfl, by simp, ?_⟩
  · refine ⟨⟨?_, ?_, ?_, ?_, ?_, ?_⟩, ?_, ?_, ?_⟩
    · intro s state h
      rcases hstate h with ⟨rfl, rfl⟩
      rfl
    · intro s state h
      rcases hstate h with ⟨rfl, rfl⟩
      rfl
    · simp
    · simp
    · exact Nat.one_pos
    · nofun
    · intro s state h
      rcases hstate h with ⟨rfl, rfl⟩
      rfl
    · simp
    · rfl
  · intro s
    rcases s with _ | s
    · simp [isFinal]
    · simp [isFinal]

theorem single_shape (symbol : Symbol) (n : Nat) :
    (single symbol n).1.Shape 2 0 (fun t => t = ⟨0, 1, symbol⟩) (fun s => s = 1) := by
  have hsingle : (single symbol n).1 =
      (((((epsilon n).1.setFinal 0 false).pushState (n + 1)).setFinal 1 true).addTransition 0 1
        symbol) := rfl
  rw [hsingle]
  refine ((((epsilon_shape n).setFinal_false ?_).pushState (n + 1)).setFinal_true ?_).addTransition
    ?_ ?_ ?_ |>.congr ?_ ?_
  · exact Nat.one_pos
  · exact Nat.lt_succ_self 1
  · exact Nat.two_pos
  · exact Nat.lt_succ_self 1
  · intro _
    exact Nat.zero_ne_one
  · simp
  · simp

/-! ## Reversal -/

/-- A transition read backwards. -/
def flipped (t : Transition) : Transition :=
  ⟨t.target, t.source, t.symbol.reversed⟩

/-- The states by themselves, final as said. -/
def stripped (a : Automaton) (final : State → Bool) : Automaton where
  states := a.states.map fun s => { s with isFinal := final s, out := [], inc := [] }
  transitions := #[]
  initial := a.initial
  fault := a.fault

theorem stripped_shape (ha : a.WellFormed) (final : State → Bool) :
    (a.stripped final).Shape a.stateCount a.initial (fun _ => False)
      (fun s => ∃ state, a.states[s]? = some state ∧ final state = true) := by
  have hcount : (a.stripped final).stateCount = a.stateCount := by
    simp [stateCount, stripped]
  have hget : ∀ s : StateId, (a.stripped final).states[s]? =
      a.states[s]?.map fun state => { state with isFinal := final state, out := [], inc := [] } :=
    fun s => Array.getElem?_map
  have hold : ∀ {s : StateId} {state : State}, (a.stripped final).states[s]? = some state →
      state.id = s ∧ state.out = [] ∧ state.inc = [] := by
    intro s state h
    rw [hget] at h
    rcases Option.map_eq_some_iff.1 h with ⟨old, hs, rfl⟩
    have hid : old.id = s := ha.id_eq hs
    exact ⟨hid, rfl, rfl⟩
  refine ⟨?_, hcount, rfl, by simp [stripped], ?_⟩
  · refine ⟨⟨?_, ?_, ?_, ?_, ?_, ?_⟩, ?_, ?_, ?_⟩
    · intro s state h
      exact (hold h).1
    · intro s state h
      exact (hold h).2.1
    · simp [stripped]
    · simp [stripped]
    · rw [hcount]
      exact ha.initial_lt
    · simp [stripped]
    · intro s state h
      exact (hold h).2.2
    · simp [stripped]
    · exact ha.fault_eq
  · intro s
    rw [isFinal, hget, Option.any_map, Option.any_eq_true]

/-- The states of the reversed automaton before it is linked. -/
def unlinked (a : Automaton) : Automaton where
  states := a.states.map fun s => { s with isFinal := s.id == a.initial, out := [], inc := [] }
  transitions := #[]
  initial := a.initial
  fault := a.fault

theorem unlinked_shape (ha : a.WellFormed) :
    a.unlinked.Shape a.stateCount a.initial (fun _ => False) (fun s => s = a.initial) := by
  refine (stripped_shape ha (·.id == a.initial)).congr (fun _ => Iff.rfl) ?_
  intro s
  constructor
  · rintro ⟨state, hs, hinitial⟩
    rw [← ha.id_eq hs]
    exact beq_iff_eq.1 hinitial
  · rintro rfl
    rcases exists_state a ha.initial_lt with ⟨state, hs⟩
    exact ⟨state, hs, beq_iff_eq.2 (ha.id_eq hs)⟩

theorem reversedLinks_eq_foldl (a : Automaton) :
    a.reversedLinks = a.transitions.toList.foldl (fun b t =>
      b.addTransition (flipped t).source (flipped t).target (flipped t).symbol) a.unlinked := by
  rw [reversedLinks, ← Array.foldl_toList]
  rfl

theorem reversedLinks_shape (ha : a.WellFormed) :
    a.reversedLinks.Shape a.stateCount a.initial (fun t => ∃ u ∈ a.transitions, t = flipped u)
      (fun s => s = a.initial) := by
  rw [reversedLinks_eq_foldl]
  refine ((unlinked_shape ha).foldl_addTransition flipped ?_ ?_ ?_).congr ?_ (fun _ => Iff.rfl)
  · intro t ht
    exact ha.target_lt (Array.mem_toList_iff.1 ht)
  · intro t ht
    exact ha.source_lt (Array.mem_toList_iff.1 ht)
  · intro t ht hε heq
    refine ha.no_loop (Array.mem_toList_iff.1 ht) ?_ heq.symm
    rw [← hε, flipped, Symbol.isEpsilon_reversed]
  · intro t
    simp only [false_or, Array.mem_toList_iff]

theorem reverse_apply (a : Automaton) (n : Nat) :
    (∃ only, a.finals = [only] ∧ (a.reverse n).1 = a.reversedLinks.setInitial only) ∨
      (a.reverse n).1 =
        (a.finals.foldl (fun b f => b.addTransition a.reversedLinks.stateCount f .epsilon)
          (a.reversedLinks.pushState n)).setInitial a.reversedLinks.stateCount := by
  unfold reverse
  rcases a.finals with _ | ⟨f, _ | ⟨f', fs⟩⟩
  · exact .inr rfl
  · exact .inl ⟨f, rfl, rfl⟩
  · exact .inr rfl

theorem reverse_shape (ha : a.WellFormed) (n : Nat) :
    (∃ only, (∀ f, a.isFinal f = true ↔ f = only) ∧
      (a.reverse n).1.Shape a.stateCount only (fun t => ∃ u ∈ a.transitions, t = flipped u)
        (fun s => s = a.initial)) ∨
    (a.reverse n).1.Shape (a.stateCount + 1) a.stateCount
      (fun t => (∃ u ∈ a.transitions, t = flipped u) ∨
        ∃ f, a.isFinal f = true ∧ t = bridge a.stateCount f)
      (fun s => s = a.initial) := by
  have hlinks := reversedLinks_shape ha
  rcases reverse_apply a n with ⟨only, honly, hreverse⟩ | hreverse
  · have hfinal : ∀ f, a.isFinal f = true ↔ f = only := by
      intro f
      rw [← ha.mem_finals, honly, List.mem_singleton]
    refine .inl ⟨only, hfinal, ?_⟩
    rw [hreverse]
    exact hlinks.setInitial (isFinal_lt ((hfinal only).2 rfl))
  · refine .inr ?_
    rw [hreverse, hlinks.stateCount_eq]
    have hstart : (a.finals.foldl (fun b f => b.addTransition a.stateCount f .epsilon)
        (a.reversedLinks.pushState n)).Shape (a.stateCount + 1) a.initial
        (fun t => (∃ u ∈ a.transitions, t = flipped u) ∨
          ∃ f ∈ a.finals, t = bridge a.stateCount f) (fun s => s = a.initial) := by
      refine (hlinks.pushState n).foldl_addTransition (bridge a.stateCount) ?_ ?_ ?_
      · intro f hf
        exact Nat.lt_succ_self _
      · intro f hf
        exact Nat.lt_succ_of_lt (isFinal_lt (ha.mem_finals.1 hf))
      · intro f hf _ heq
        have := isFinal_lt (ha.mem_finals.1 hf)
        lia
    refine (hstart.setInitial (Nat.lt_succ_self _)).congr ?_ (fun _ => Iff.rfl)
    intro t
    simp only [ha.mem_finals]

end Operations

end Automaton
end PathQuery
