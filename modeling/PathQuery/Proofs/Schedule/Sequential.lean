import Mathlib.Data.List.Induction
import PathQuery.Proofs.Evaluation.Rerun
import PathQuery.Proofs.Schedule.Bodies
import PathQuery.Proofs.Schedule.Order

/-!
# A batch without workers

The queries of a batch are evaluated one after the other, and each value is published before the
next query is looked at.

* `DependencyGraph.oneByOne`: the environment in the end, or the first error;
* `DependencyGraph.MayResolve`: the names that a query may resolve;
* `DependencyGraph.Declared`: no query resolves others when its turn comes;
* `Receipt`, `Ledger`: what every query answered, and the handles that it took for that;
* `exists_ledger`: if all went well, every value can be found again from the values of the queries
  that the query depends on.
-/

namespace PathQuery

/-! ## Parts of an environment -/

namespace SharedEnvironment

theorem get_insertNew_iff {env env' : SharedEnvironment} {name : String} {value : Value}
    (h : env.insertNew name value = .ok env') (x : String) (v : Value) :
    env'.get x = some v ↔ env.get x = some v ∨ name = x ∧ value = v := by
  obtain ⟨hfree, rfl⟩ := insertNew_eq_ok_iff.1 h
  rw [get_append env _ rfl, List.lookup_cons, List.lookup_nil]
  by_cases hsame : x = name
  · subst hsame
    simp [hfree]
  · simp [beq_false_of_ne hsame, Ne.symm hsame]

/-- The entries under some of the names. -/
theorem exists_restricted (env : SharedEnvironment) (names : String → Prop) :
    ∃ part : SharedEnvironment,
      (∀ x, names x → part.get x = env.get x) ∧ ∀ x, ¬ names x → part.get x = none := by
  classical
  refine ⟨⟨env.entries.filter fun entry => names entry.1⟩, ?_⟩
  simp only [get]
  induction env.entries with
  | nil => simp
  | cons entry entries ih =>
    obtain ⟨key, value⟩ := entry
    rw [List.filter_cons]
    refine ⟨fun x hx => ?_, fun x hx => ?_⟩
    · by_cases hsame : x = key
      · subst hsame
        simp [hx]
      · split <;> simp [List.lookup_cons, beq_false_of_ne hsame, ih.1 x hx]
    · split
      next hhere =>
        have hother : x ≠ key := fun hsame => hx (by simpa [hsame] using hhere)
        simp [List.lookup_cons, beq_false_of_ne hother, ih.2 x hx]
      next => exact ih.2 x hx

end SharedEnvironment

namespace DependencyGraph

/-! ## One query after the other -/

def oneByOne (dag : DependencyGraph) (g : Graph) :
    List String → SharedEnvironment → Supply → Except EvalError (SharedEnvironment × Supply)
  | [], env, supply => .ok (env, supply)
  | name :: names, env, supply => do
    let i ← dag.position name
    match dag.bodyOf i with
    | none => .error (.unknownQuery name)
    | some body =>
      let (outcome, _, supply) := body.run g env supply
      match Batch.publish env name outcome with
      | (.error e, _) => .error e
      | (.ok (), env) => oneByOne dag g names env supply

/-- A name that was there before the batch, or that of a query on which this one depends. -/
def MayResolve (dag : DependencyGraph) (env : SharedEnvironment) (i : Nat) (x : String) : Prop :=
  env.contains x = true ∨ ∃ p, Relation.TransGen dag.DependsOn i p ∧ dag.nameOf p = x

/-- At its turn, no query resolves other names than it may. -/
def Declared (dag : DependencyGraph) (g : Graph) (order : List String) (env : SharedEnvironment)
    (supply : Supply) : Prop :=
  ∀ before name after i q known first, order = before ++ name :: after →
    dag.position name = .ok i → dag.bodyOf i = some (.query q) →
    dag.oneByOne g before env supply = .ok (known, first) →
    q.ResolvesOnly g (dag.MayResolve env i) known first

variable {dag : DependencyGraph} {g : Graph} {env known : SharedEnvironment}
  {supply later : Supply} {base i : Nat}

theorem WellFormed.position_nameOf (hw : dag.WellFormed) (hlt : i < dag.size) :
    dag.position (dag.nameOf i) = .ok i := by
  have hnamed := getElem?_names_of_lt hlt
  obtain ⟨hhere, hsame⟩ := List.getElem?_eq_some_iff.1 hnamed
  have hfound : dag.find (dag.nameOf i) = some i := by
    rw [find, ← hsame, List.idxOf?_eq_some_iff]
    refine ⟨hhere, rfl, fun j hearlier => ?_⟩
    exact fun htwice => absurd ((hw.names_nodup.getElem_inj_iff).1 htwice) (by omega)
  rw [position, hfound]

theorem oneByOne_append (names names' : List String) (env : SharedEnvironment) (supply : Supply) :
    dag.oneByOne g (names ++ names') env supply =
      (dag.oneByOne g names env supply).bind fun r => dag.oneByOne g names' r.1 r.2 := by
  induction names generalizing env supply with
  | nil => rfl
  | cons name names ih =>
    simp only [List.cons_append, oneByOne]
    cases dag.position name with
    | error e => rfl
    | ok i =>
      simp only [bind, Except.bind]
      split
      · rfl
      · split
        · rfl
        · exact ih _ _

theorem oneByOne_cons_eq_ok {name : String} {names : List String}
    {r : SharedEnvironment × Supply} (h : dag.oneByOne g (name :: names) env supply = .ok r) :
    ∃ i body value rest later env', dag.position name = .ok i ∧ dag.bodyOf i = some body ∧
      body.run g env supply = (.ok value, rest, later) ∧ env.insertNew name value = .ok env' ∧
      dag.oneByOne g names env' later = .ok r := by
  simp only [oneByOne] at h
  cases hposition : dag.position name with
  | error e => simp [hposition, bind, Except.bind] at h
  | ok i =>
    simp only [hposition, bind, Except.bind] at h
    cases hhere : dag.bodyOf i with
    | none => simp [hhere] at h
    | some body =>
      simp only [hhere] at h
      rcases hpublication : Batch.publish env name (body.run g env supply).1 with ⟨result, env'⟩
      rcases Batch.publish_cases hpublication with ⟨value, hanswer, rfl, hstored⟩ | ⟨e, rfl, -⟩
      · rw [hpublication] at h
        exact ⟨i, body, value, _, _, env', rfl, hhere, Prod.ext hanswer rfl, hstored, h⟩
      · rw [hpublication] at h
        cases h

end DependencyGraph

/-! ## The ledger -/

/-- What a query answered, and from which handle up to which one it took handles for that. -/
structure Receipt where
  value : Value
  start : Nat
  stop : Nat

/-- A receipt for every query. -/
abbrev Ledger :=
  Nat → Receipt

namespace Ledger

/-- The receipt of a query tells how it was evaluated, and it can be evaluated again from the values
of other queries that are done. -/
structure Entered (L : Ledger) (dag : DependencyGraph) (g : Graph) (env : SharedEnvironment)
    (base : Nat) (done : List Nat) (i : Nat) : Prop where
  base_le : base ≤ (L i).start
  start_le : (L i).start ≤ (L i).stop
  before : (L i).value.Before (L i).stop
  free : env.get (dag.nameOf i) = none
  answer : ∃ q seen first rest next,
    dag.bodyOf i = some (.query q) ∧ first.handles = (L i).start ∧
    q.run g seen first = (.ok (L i).value, rest, next) ∧
    ∀ x v, seen.get x = some v → env.get x = some v ∨
      ∃ p ∈ done, Relation.TransGen dag.DependsOn i p ∧ (L p).stop ≤ (L i).start ∧
        dag.nameOf p = x ∧ (L p).value = v

/-- All queries that are done have a receipt, and their values are known. -/
structure Holds (L : Ledger) (dag : DependencyGraph) (g : Graph) (env : SharedEnvironment)
    (base : Nat) (done : List Nat) (known : SharedEnvironment) (later : Supply) : Prop where
  base_le : base ≤ later.handles
  entered {i : Nat} : i ∈ done → L.Entered dag g env base done i
  stop_le {i : Nat} : i ∈ done → (L i).stop ≤ later.handles
  apart {i j : Nat} : i ∈ done → j ∈ done → i ≠ j →
    (L i).stop ≤ (L j).start ∨ (L j).stop ≤ (L i).start
  get_iff (x : String) (v : Value) : known.get x = some v ↔
    env.get x = some v ∨ ∃ i ∈ done, dag.nameOf i = x ∧ (L i).value = v
  known_before (x : String) (v : Value) : known.get x = some v → v.Before later.handles

variable {L L' : Ledger} {dag : DependencyGraph} {g : Graph} {env known : SharedEnvironment}
  {supply later next : Supply} {base i : Nat} {done done' : List Nat} {q rest : Query}
  {value : Value}

/-- The receipts of queries that are not done do not matter. -/
theorem Entered.congr (h : L.Entered dag g env base done i) (hmem : i ∈ done)
    (hsame : ∀ j ∈ done, L' j = L j) (hmore : done ⊆ done') :
    L'.Entered dag g env base done' i := by
  have hown := hsame i hmem
  obtain ⟨q, seen, first, rest, next, hbody, hhandles, hrun, hentries⟩ := h.answer
  refine ⟨hown ▸ h.base_le, hown ▸ h.start_le, hown ▸ h.before, h.free, q, seen, first, rest, next,
    hbody, hown ▸ hhandles, hown ▸ hrun, fun x v hthere => ?_⟩
  refine (hentries x v hthere).imp_right ?_
  rintro ⟨p, hp, hpath, hle, hname, hknown⟩
  exact ⟨p, hmore hp, hpath, by rw [hsame p hp, hown]; exact hle, hname, by rw [hsame p hp, hknown]⟩

theorem holds_nil (L : Ledger) (dag : DependencyGraph) (g : Graph)
    (hbase_le : base ≤ supply.handles)
    (hbefore : ∀ x v, env.get x = some v → v.Before base) :
    L.Holds dag g env base [] env supply where
  base_le := hbase_le
  entered h := absurd h List.not_mem_nil
  stop_le h := absurd h List.not_mem_nil
  apart h := absurd h List.not_mem_nil
  get_iff x v := by simp
  known_before x v h := (hbefore x v h).mono hbase_le

section Next

variable (h : L.Holds dag g env base done known later)
  (hdepends : ∀ p, Relation.TransGen dag.DependsOn i p → p ∈ done)
  (hbody : dag.bodyOf i = some (.query q)) (hold : q.Before base)
  (huniform : q.functions.Uniform base fun _ => True)
  (hresolves : q.ResolvesOnly g (dag.MayResolve env i) known later)
  (hrun : q.run g known later = (.ok value, rest, next))
include h hdepends hbody hold huniform hresolves hrun

/-- The next query is evaluated with all that is known, and would have answered the same with the
part of it that it may resolve. -/
theorem Holds.entered_next (hunnamed : known.get (dag.nameOf i) = none)
    (hsame : ∀ j ∈ done, L' j = L j) (hown : L' i = ⟨value, later.handles, next.handles⟩)
    (hmore : done ⊆ done') : L'.Entered dag g env base done' i := by
  obtain ⟨hfresh, hle⟩ := hold.run_before huniform h.base_le h.known_before hrun
  obtain ⟨seen, hinside, houtside⟩ := known.exists_restricted (dag.MayResolve env i)
  -- Evaluated with this part only, the query need not have taken the same number of handles.
  have hanswers := hresolves seen hinside
  rcases hagain : q.run g seen later with ⟨outcome, rest', next'⟩
  rw [hagain, hrun] at hanswers
  obtain rfl : outcome = .ok value := hanswers
  refine ⟨hown ▸ h.base_le, hown ▸ hle, hown ▸ hfresh, ?_, q, seen, later, rest', next', hbody,
    by rw [hown], by rw [hown, hagain], fun x v hthere => ?_⟩
  · by_contra htaken
    obtain ⟨v, hthere⟩ := Option.ne_none_iff_exists'.1 htaken
    cases hunnamed.symm.trans ((h.get_iff _ v).2 (.inl hthere))
  · by_cases hmay : dag.MayResolve env i x
    · rw [hinside x hmay] at hthere
      rcases hmay with hbefore | ⟨p, hpath, rfl⟩
      · obtain ⟨u, hu⟩ := Option.isSome_iff_exists.1 hbefore
        cases hthere.symm.trans ((h.get_iff x u).2 (.inl hu))
        exact .inl hu
      · have hp := hdepends p hpath
        have hresult := (h.get_iff _ (L p).value).2 (.inr ⟨p, hp, rfl, rfl⟩)
        refine .inr ⟨p, hmore hp, hpath, ?_, rfl, ?_⟩
        · rw [hsame p hp, hown]
          exact h.stop_le hp
        · rw [hsame p hp]
          exact Option.some.inj (hresult.symm.trans hthere)
    · cases (houtside x hmay).symm.trans hthere

/-- A receipt more. -/
theorem Holds.snoc (hnew : i ∉ done) {known' : SharedEnvironment}
    (hstored : known.insertNew (dag.nameOf i) value = .ok known') :
    Ledger.Holds (Function.update L i ⟨value, later.handles, next.handles⟩) dag g env base
      (done ++ [i]) known' next := by
  obtain ⟨hfresh, hle⟩ := hold.run_before huniform h.base_le h.known_before hrun
  have hsame : ∀ j ∈ done,
      Function.update L i ⟨value, later.handles, next.handles⟩ j = L j := fun j hmem => by
    have hother : j ≠ i := fun hhere => hnew (hhere ▸ hmem)
    rw [Function.update_of_ne hother]
  have hown : Function.update L i ⟨value, later.handles, next.handles⟩ i =
      ⟨value, later.handles, next.handles⟩ := Function.update_self _ _ _
  have hmore : done ⊆ done ++ [i] := List.subset_append_left _ _
  have hcases_mem : ∀ {j}, j ∈ done ++ [i] → j ∈ done ∨ j = i := fun hmem => by simpa using hmem
  -- That it is the old ledger but for the new receipt is all that is needed of it.
  generalize Function.update L i ⟨value, later.handles, next.handles⟩ = L' at hsame hown ⊢
  constructor
  case base_le => exact h.base_le.trans hle
  case entered =>
    intro j hmem
    rcases hcases_mem hmem with hearlier | rfl
    · exact (h.entered hearlier).congr hearlier hsame hmore
    · exact h.entered_next hdepends hbody hold huniform hresolves hrun
        (SharedEnvironment.insertNew_eq_ok_iff.1 hstored).1 hsame hown hmore
  case stop_le =>
    intro j hmem
    rcases hcases_mem hmem with hearlier | rfl
    · rw [hsame j hearlier]
      exact (h.stop_le hearlier).trans hle
    · rw [hown]
  case apart =>
    intro j k hj hk hne
    rcases hcases_mem hj with holdj | rfl
    · rcases hcases_mem hk with holdk | rfl
      · rw [hsame j holdj, hsame k holdk]
        exact h.apart holdj holdk hne
      · rw [hsame j holdj, hown]
        exact .inl (h.stop_le holdj)
    · rcases hcases_mem hk with holdk | rfl
      · rw [hsame k holdk, hown]
        exact .inr (h.stop_le holdk)
      · exact (hne rfl).elim
  case get_iff =>
    intro x v
    rw [SharedEnvironment.get_insertNew_iff hstored, h.get_iff, or_assoc]
    refine or_congr_right ⟨?_, ?_⟩
    · rintro (⟨j, hearlier, hname, rfl⟩ | ⟨hname, rfl⟩)
      · exact ⟨j, hmore hearlier, hname, by rw [hsame j hearlier]⟩
      · exact ⟨i, by simp, hname, by rw [hown]⟩
    · rintro ⟨j, hmem, hname, rfl⟩
      rcases hcases_mem hmem with hearlier | rfl
      · exact .inl ⟨j, hearlier, hname, by rw [hsame j hearlier]⟩
      · exact .inr ⟨hname, by rw [hown]⟩
  case known_before =>
    intro x v hthere
    rcases (SharedEnvironment.get_insertNew_iff hstored x v).1 hthere with hbefore | ⟨-, rfl⟩
    · exact (h.known_before x v hbefore).mono hle
    · exact hfresh

end Next

end Ledger

namespace DependencyGraph

variable {dag : DependencyGraph} {g : Graph} {env known : SharedEnvironment}
  {supply later : Supply} {base : Nat} {order : List Nat}

/-- Whatever was evaluated in the order can be put down in a ledger. -/
theorem exists_ledger (hw : dag.WellFormed) (hs : dag.Sorted order)
    (hqueries : ∀ i body, dag.bodyOf i = some body → ∃ q, body = .query q ∧ q.Before base)
    (huniform : ∀ i q, dag.bodyOf i = some (.query q) → q.functions.Uniform base fun _ => True)
    (hbase_le : base ≤ supply.handles) (hbefore : ∀ x v, env.get x = some v → v.Before base)
    (hdeclared : dag.Declared g (order.map dag.nameOf) env supply) (done rest : List Nat)
    (hsplit : order = done ++ rest)
    (hevaluated : dag.oneByOne g (done.map dag.nameOf) env supply = .ok (known, later)) :
    ∃ L : Ledger, L.Holds dag g env base done known later := by
  -- The induction is on what has been evaluated so far: the last query adds its receipt.
  induction done using List.reverseRecOn generalizing rest known later with
  | nil =>
    cases hevaluated
    exact ⟨fun _ => ⟨.null, 0, 0⟩, Ledger.holds_nil _ dag g hbase_le hbefore⟩
  | append_singleton done i ih =>
    have hsplit : order = done ++ i :: rest := by simpa using hsplit
    have hnames : order.map dag.nameOf =
        done.map dag.nameOf ++ dag.nameOf i :: rest.map dag.nameOf := by simp [hsplit]
    have hlt : i < dag.size := hs.lt_size (by simp [hsplit])
    have hnew : i ∉ done := fun hold => by
      rw [hsplit] at hs
      exact (List.nodup_append.1 hs.nodup).2.2 i hold i List.mem_cons_self rfl
    have hposition := hw.position_nameOf hlt
    rw [List.map_append, oneByOne_append] at hevaluated
    cases hfirst : dag.oneByOne g (done.map dag.nameOf) env supply with
    | error e =>
      rw [hfirst] at hevaluated
      cases hevaluated
    | ok r =>
      obtain ⟨known', later'⟩ := r
      rw [hfirst] at hevaluated
      obtain ⟨j, body, value, left, next, env', hhere, hholds, hrun, hstored, hended⟩ :=
        oneByOne_cons_eq_ok hevaluated
      obtain rfl : i = j := Except.ok.inj (hposition.symm.trans hhere)
      obtain ⟨q, rfl, hold⟩ := hqueries i body hholds
      cases hended
      obtain ⟨L, hfaithful⟩ := ih (i :: rest) hsplit hfirst
      have hresolves := hdeclared _ _ _ i q known' later' hnames hposition hholds hfirst
      rcases hanswer : q.run g known' later' with ⟨outcome, left', next'⟩
      simp only [Body.run, hanswer] at hrun
      cases hrun
      have hdepends : ∀ p, Relation.TransGen dag.DependsOn i p → p ∈ done :=
        fun p hpath => hs.mem_of_transGen hsplit hpath
      exact ⟨_, hfaithful.snoc hdepends hholds hold (huniform i q hholds) hresolves hanswer hnew
        hstored⟩

end DependencyGraph

end PathQuery
