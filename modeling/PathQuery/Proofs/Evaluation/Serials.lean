import PathQuery.Proofs.Evaluation.Built
import PathQuery.Proofs.Evaluation.Correspondence
import PathQuery.Proofs.Evaluation.Traced

/-!
# Serials of compiled automata

A transposed automaton keeps the serials of its operand, a composed one those of its parts.  They
are distinct nevertheless: parts are copied before they are composed, and every copy draws serials
of its own.

* `Provenance.numbered`: what is known of automata by their serials;
* `Scope.BringsNoAutomata`: all automata of a region of nodes are compiled there;
* `bringsNoAutomata_of_describesPath`: so are those of path descriptions, whatever functions answer;
* `Evaluation.Requested`, `Evaluation.Reached`: the requests to an evaluator, and the workspaces that
  it gets to by them;
* `serials_distinct`: in an automaton that is a result no two states have one serial, and all
  serials were given out.
-/

namespace PathQuery

/-! ## What comes from outside -/

def Value.IsAutomaton : Value → Prop
  | .automaton _ _ => True
  | _ => False

/-- In the region neither literals nor results of other queries are automata, and functions answer
with no automata but their arguments.  What is transposed or handed on there belongs to it, too. -/
structure Scope.BringsNoAutomata (scope : Scope) (region : NodeId → Prop) : Prop where
  literal {id : NodeId} {v : Value} : region id → scope.nodes.get id = .ok (.literal v) →
    ¬ v.IsAutomaton
  shared {id : NodeId} {x : String} {v : Value} : region id → scope.nodes.get id = .ok (.var x) →
    scope.shared.bind (·.get x) = some v → ¬ v.IsAutomaton
  transposed {id part : NodeId} : region id → scope.nodes.get id = .ok (.transposed part) →
    region part
  argument {id part : NodeId} {name : String} {parts : List NodeId} : region id →
    scope.nodes.get id = .ok (.call name parts) → part ∈ parts → region part
  call {id : NodeId} {n : Nat} {name : String} {parts : List NodeId} {args : List Value}
    {v : Value} : region id → scope.nodes.get id = .ok (.call name parts) →
    scope.functions.call n name args = .ok v → v.IsAutomaton → v ∈ args

/-- Path descriptions look up no variable and call no function. -/
theorem Scope.bringsNoAutomata_of_describesPath {scope : Scope}
    (hliteral : ∀ {id v}, scope.nodes.get id = .ok (.literal v) → ¬ v.IsAutomaton) :
    scope.BringsNoAutomata scope.nodes.DescribesPath := by
  have hexcluded {id : NodeId} {node : Node} (hid : scope.nodes.DescribesPath id)
      (hget : scope.nodes.get id = .ok node) (hother : node.isPathDescription = false)
      (hcomputed : ∀ v, node ≠ .literal v) : False := by
    rcases hid id node .refl hget with hpath | ⟨v, hsame, -⟩
    · exact absurd (hother.symm.trans hpath) Bool.false_ne_true
    · exact hcomputed v hsame
  constructor
  case literal => exact fun _ hget => hliteral hget
  case transposed => exact fun hid hget => hid.part hget (List.mem_singleton_self _)
  case shared => exact fun hid hget => (hexcluded hid hget rfl nofun).elim
  case argument => exact fun hid hget => (hexcluded hid hget rfl nofun).elim
  case call => exact fun hid hget => (hexcluded hid hget rfl nofun).elim

/-! ## What is known of automata -/

namespace Provenance

/-- No serial of an automaton occurs twice or is still to be given out. -/
def numbered (region : NodeId → Prop) : Provenance where
  region := region
  value s v := ∀ h a, v = .automaton h a → Numbered s.serials a.serials
  serials := Numbered
  value_mono hs hv h a heq := (hv h a heq).mono hs.serials_le
  serials_mono hle hl := hl.mono hle
  serials_nil := .nil
  serials_draw k hl := hl.draw k
  simple hv h a heq := absurd (heq ▸ hv) (Value.not_isSimple_automaton h a)
  automaton ha h b heq := by
    cases heq
    exact ha
  pathSystem _ := nofun
  serials_of_automaton hv := hv _ _ rfl

theorem numbered_of_not_isAutomaton {region : NodeId → Prop} {v : Value} (hv : ¬ v.IsAutomaton)
    (s : Supply) : (numbered region).value s v := by
  rintro h a rfl
  exact absurd trivial hv

end Provenance

namespace Evaluation

open Eval

theorem traceable_numbered {scope : Scope} {region : NodeId → Prop}
    (h : scope.BringsNoAutomata region) : Traceable (.numbered region) scope where
  literal hid hget := Provenance.numbered_of_not_isAutomaton (h.literal hid hget)
  shared hid hget hx := Provenance.numbered_of_not_isAutomaton (h.shared hid hget hx)
  transposed := h.transposed
  argument := h.argument
  call hid hget hargs hcall := by
    rintro k a rfl
    exact hargs _ (h.call hid hget hcall trivial) k a rfl

/-! ## Requests -/

/-- What can be asked of an evaluator. -/
inductive Requested (scope : Scope) : {α : Type} → Eval α → Prop where
  | result (id : NodeId) : Requested scope (result scope id)
  | guard (g : Guard) (e : Incidence) : Requested scope (guard scope g e)
  | candidate (symbol : Symbol) (v : Nat) (e : Option Incidence) :
    Requested scope (candidateAccepts scope symbol v e)
  | reachable (a : Automaton) (start : IdSet) : Requested scope (reachable scope a start)
  | backward (a : Automaton) (target : IdSet) : Requested scope (backward scope a target)
  | connects (a : Automaton) (start target : IdSet) :
    Requested scope (connects scope a start target)
  | pathSystem (a : Automaton) (start : IdSet) : Requested scope (pathSystem scope a start)

/-- The workspaces of an evaluator.  Requests may end in any way.  In between anything may be
forgotten, variables may be set to anything but automata, and others may draw from the supply. -/
inductive Reached (region : NodeId → Prop) : Workspace → Prop where
  | start {w : Workspace} : w.cache = {} → (∀ frame ∈ w.bindings.frames, ¬ frame.2.IsAutomaton) →
    Reached region w
  | request {w : Workspace} {scope : Scope} {α : Type} {x : Eval α} : Reached region w →
    scope.BringsNoAutomata region → Requested scope x → Reached region (x w).2
  | between {w w' : Workspace} : Reached region w →
    (∀ n v, w'.cache.memo n = .done v → w.cache.memo n = .done v) →
    (∀ frame ∈ w'.bindings.frames, ¬ frame.2.IsAutomaton) → w.supply.Precedes w'.supply →
    Reached region w'

variable {scope : Scope} {region : NodeId → Prop} {w w₁ : Workspace}

theorem Requested.traces (hscope : scope.BringsNoAutomata region) {α : Type} {x : Eval α}
    (hx : Requested scope x) (s : Supply) : Traces (.numbered region) s (fun _ _ => True) x := by
  have hscope := traceable_numbered hscope
  have hresult : ∀ c t, ValueTraced (.numbered region) t c (Evaluation.result scope c) :=
    fun c _ => result_traces hscope c
  cases hx with
  | result id => exact (hresult id s).any
  | guard g e => exact evaluateGuard_traces hresult g e
  | candidate symbol v e =>
    cases e with
    | none => exact .pure fun _ _ => trivial
    | some e => exact accepts_traces hresult symbol v e
  | reachable a start => exact reachable_traces hresult a start
  | backward a target => exact reachableBackward_traces hresult a target
  | connects a start target => exact connects_traces hresult a start target
  | pathSystem a start =>
    have hfound : Traces (.numbered region) s
        (fun t v => True → (Provenance.numbered region).value t v)
        (pathSystemValue scope (Evaluation.result scope) a start) :=
      pathSystemValue_traces hresult a start
    exact hfound.any

theorem Reached.traced (h : Reached region w) : w.Traced (.numbered region) w.supply := by
  induction h with
  | @start w hcache hbindings =>
    refine ⟨.refl _, fun {n v} _ hdone => ?_, fun hframe => ?_⟩
    · rw [hcache, Cache.memo_empty] at hdone
      cases hdone
    · exact Provenance.numbered_of_not_isAutomaton (hbindings _ hframe) _
  | @request w scope α x _ hscope hx ih =>
    -- Failures leave the workspace as good as values do.
    have htraces := hx.traces hscope w.supply w ih
    unfold Ensures at htraces
    rcases hxw : x w with ⟨failure | r, w₁⟩
    · rw [hxw] at htraces
      exact htraces.now
    · rw [hxw] at htraces
      exact htraces.1.now
  | between _ hforgets hbindings hsupply ih =>
    refine ⟨.refl _, fun hn hdone => ?_, fun hframe => ?_⟩
    · exact (Provenance.numbered region).value_mono hsupply (ih.memos hn (hforgets _ _ hdone))
    · exact Provenance.numbered_of_not_isAutomaton (hbindings _ hframe) _

/-! ## Results -/

/-- The region can be all nodes, and then functions must nowhere hand out automata that they were
not given; or the path descriptions, and then it does not matter what functions answer. -/
theorem serials_distinct {id : NodeId} {h : Nat} {a : Automaton} (hw : Reached region w)
    (hscope : scope.BringsNoAutomata region) (hid : region id)
    (hresult : Evaluation.result scope id w = (.ok (.automaton h a), w₁)) :
    a.serials.Nodup ∧ ∀ n ∈ a.serials, n < w₁.supply.serials := by
  have htraces := result_traces (traceable_numbered hscope) id w hw.traced
  unfold Ensures at htraces
  rw [hresult] at htraces
  have hnumbered := htraces.2 hid h a rfl
  exact ⟨hnumbered.nodup, fun n hn => hnumbered.lt_next hn⟩

/-- The shared step is known from an earlier request; it is copied twice into the alternative, and
the alternative into the iteration. -/
theorem serials_distinct_guardedTrips :
    let scope : Scope := { graph := towns, nodes := guardedTrips }
    ∃ h a w₁, Evaluation.result scope 6 (Evaluation.result scope 2 {}).2 =
        (.ok (.automaton h a), w₁) ∧
      a.serials.length = 10 ∧ a.serials.Nodup ∧ ∀ n ∈ a.serials, n < w₁.supply.serials := by
  intro scope
  have hscope : scope.BringsNoAutomata guardedTrips.DescribesPath := by
    refine Scope.bringsNoAutomata_of_describesPath fun {n v} hget => ?_
    rcases n with _ | _ | _ | _ | _ | _ | _ | n
    · cases hget
      exact id
    · cases hget
      exact id
    all_goals cases hget
  have hreached : Reached guardedTrips.DescribesPath (Evaluation.result scope 2 {}).2 :=
    .request (.start rfl nofun) hscope (.result 2)
  have hcompiles : ((Evaluation.result scope 6 (Evaluation.result scope 2 {}).2).1.toOption.bind
      fun v => (v.toAutomaton "").toOption).map (·.serials.length) = some 10 := by decide +kernel
  rcases hresult : Evaluation.result scope 6 (Evaluation.result scope 2 {}).2 with
    ⟨failure | v, w₁⟩
  · rw [hresult] at hcompiles
    cases hcompiles
  · rw [hresult] at hcompiles
    cases v with
    | automaton h a =>
      exact ⟨h, a, w₁, rfl, Option.some.inj hcompiles,
        serials_distinct hreached hscope guardedTrips_describesPath hresult⟩
    | _ => cases hcompiles

end Evaluation
end PathQuery
