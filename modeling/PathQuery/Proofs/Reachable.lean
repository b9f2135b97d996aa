import Mathlib.Logic.Relation
import Mathlib.Data.Finset.Card
import Mathlib.Data.Finset.Range
import PathQuery.Reachable

/-!
# The search in rounds is exact

`reachableFrom next bound start` is meant to list everything that can be reached from `start`.
Rounds are limited, so this needs a bound on the numbers from which a step leads anywhere.

* `mem_reachableFrom`: a number is found if and only if a chain of steps leads to it;
* `reachableFrom_eq_of_le`: more rounds than there are such numbers find no more;
* `closed_reachableRounds`: the invariant behind it — the part that is found but no longer in the
  frontier has all its successors found, and it grows with every round.
-/

namespace PathQuery

/-- One step of a search. -/
def NextStep (next : Nat → List Nat) (x y : Nat) : Prop :=
  y ∈ next x

section Rounds

variable {next : Nat → List Nat}

theorem mem_unseen {seen candidates : List Nat} {x : Nat} :
    x ∈ unseen seen candidates ↔ x ∈ candidates ∧ x ∉ seen := by
  simp [unseen]

theorem subset_reachableRounds (rounds : Nat) {seen frontier : List Nat} {x : Nat}
    (hx : x ∈ seen) : x ∈ reachableRounds next rounds seen frontier := by
  induction rounds generalizing seen frontier with
  | zero =>
    exact hx
  | succ rounds ih =>
    simp only [reachableRounds]
    split
    · exact hx
    · exact ih (List.mem_append_right _ hx)

theorem sound_reachableRounds {start : Nat} (rounds : Nat) {seen frontier : List Nat}
    (hfrontier : ∀ x ∈ frontier, x ∈ seen)
    (hseen : ∀ x ∈ seen, Relation.ReflTransGen (NextStep next) start x) :
    ∀ x ∈ reachableRounds next rounds seen frontier,
      Relation.ReflTransGen (NextStep next) start x := by
  induction rounds generalizing seen frontier with
  | zero =>
    exact hseen
  | succ rounds ih =>
    simp only [reachableRounds]
    split
    · exact hseen
    · apply ih
      · intro x hx
        exact List.mem_append_left _ hx
      · intro x hx
        rcases List.mem_append.1 hx with hx | hx
        · rcases List.mem_flatMap.1 (mem_unseen.1 hx).1 with ⟨y, hy, hyx⟩
          exact (hseen y (hfrontier y hy)).tail hyx
        · exact hseen x hx

/-- The numbers below a bound that were found and have left the frontier. -/
def settled (bound : Nat) (seen frontier : List Nat) : Finset Nat :=
  (Finset.range bound).filter fun x => x ∈ seen ∧ x ∉ frontier

theorem mem_settled {bound : Nat} {seen frontier : List Nat} {x : Nat} :
    x ∈ settled bound seen frontier ↔ x < bound ∧ x ∈ seen ∧ x ∉ frontier := by
  simp [settled]

theorem settled_eq_range {bound : Nat} {seen frontier : List Nat}
    (h : bound ≤ (settled bound seen frontier).card) :
    settled bound seen frontier = Finset.range bound := by
  refine Finset.eq_of_subset_of_card_le (Finset.filter_subset _ _) ?_
  rwa [Finset.card_range]

/-- A round that finds something new takes at least one number out of the frontier. -/
theorem card_settled_lt {bound : Nat} (hinner : ∀ x, next x ≠ [] → x < bound)
    {seen frontier fresh : List Nat} (hfrontier : ∀ x ∈ frontier, x ∈ seen)
    (hfresh : unseen seen (frontier.flatMap next) = fresh) (hne : fresh ≠ []) :
    (settled bound seen frontier).card < (settled bound (fresh ++ seen) fresh).card := by
  rcases List.exists_mem_of_ne_nil fresh hne with ⟨y, hy⟩
  have hy' : y ∈ unseen seen (frontier.flatMap next) := hfresh ▸ hy
  rcases List.mem_flatMap.1 (mem_unseen.1 hy').1 with ⟨x, hx, hxy⟩
  have hnew : ∀ z ∈ seen, z ∉ fresh := by
    intro z hz hz'
    have hz'' : z ∈ unseen seen (frontier.flatMap next) := hfresh ▸ hz'
    exact (mem_unseen.1 hz'').2 hz
  apply Finset.card_lt_card
  refine (Finset.ssubset_iff_of_subset ?_).2 ⟨x, ?_, ?_⟩
  · intro z hz
    rcases mem_settled.1 hz with ⟨hlt, hz, _⟩
    exact mem_settled.2 ⟨hlt, List.mem_append_right _ hz, hnew z hz⟩
  · have hseen : x ∈ seen := hfrontier x hx
    have hlt : x < bound := hinner x (List.ne_nil_of_mem hxy)
    exact mem_settled.2 ⟨hlt, List.mem_append_right _ hseen, hnew x hseen⟩
  · intro hmem
    exact (mem_settled.1 hmem).2.2 hx

theorem closed_reachableRounds {bound : Nat} (hinner : ∀ x, next x ≠ [] → x < bound)
    (rounds : Nat) {seen frontier : List Nat} (hfrontier : ∀ x ∈ frontier, x ∈ seen)
    (hsettled : ∀ x ∈ seen, x ∉ frontier → ∀ y ∈ next x, y ∈ seen)
    (hrounds : bound ≤ rounds + (settled bound seen frontier).card) :
    ∀ x ∈ reachableRounds next rounds seen frontier, ∀ y ∈ next x,
      y ∈ reachableRounds next rounds seen frontier := by
  induction rounds generalizing seen frontier with
  | zero =>
    -- Everything below the bound has left the frontier.
    intro x hx y hy
    have hall : settled bound seen frontier = Finset.range bound :=
      settled_eq_range (by omega)
    have hlt : x ∈ Finset.range bound :=
      Finset.mem_range.2 (hinner x (List.ne_nil_of_mem hy))
    rw [← hall] at hlt
    exact hsettled x hx (mem_settled.1 hlt).2.2 y hy
  | succ rounds ih =>
    simp only [reachableRounds]
    split
    · rename_i hfresh
      intro x hx y hy
      by_cases hxf : x ∈ frontier
      · by_contra hys
        have : y ∈ unseen seen (frontier.flatMap next) :=
          mem_unseen.2 ⟨List.mem_flatMap.2 ⟨x, hxf, hy⟩, hys⟩
        simp [hfresh] at this
      · exact hsettled x hx hxf y hy
    · rename_i fresh hne
      have hlt := card_settled_lt hinner hfrontier rfl hne
      apply ih
      · intro x hx
        exact List.mem_append_left _ hx
      · intro x hx hxf y hy
        have hxs : x ∈ seen := (List.mem_append.1 hx).resolve_left hxf
        by_cases hys : y ∈ seen
        · exact List.mem_append_right _ hys
        · by_cases hxf' : x ∈ frontier
          · exact List.mem_append_left _
              (mem_unseen.2 ⟨List.mem_flatMap.2 ⟨x, hxf', hy⟩, hys⟩)
          · exact List.mem_append_right _ (hsettled x hxs hxf' y hy)
      · omega

/-- The search finds exactly what a chain of steps leads to, as soon as it may take as many rounds
as there are numbers from which a step leads anywhere. -/
theorem mem_reachableFrom {bound rounds start y : Nat} (hinner : ∀ x, next x ≠ [] → x < bound)
    (hrounds : bound ≤ rounds) :
    y ∈ reachableFrom next rounds start ↔ Relation.ReflTransGen (NextStep next) start y := by
  constructor
  · intro hy
    refine sound_reachableRounds rounds (fun _ hx => hx) ?_ y hy
    intro x hx
    rw [List.mem_singleton.1 hx]
  · intro hy
    induction hy with
    | refl =>
      exact subset_reachableRounds rounds (List.mem_singleton.2 rfl)
    | tail _ hstep ih =>
      apply closed_reachableRounds hinner rounds _ _ _ _ ih _ hstep
      · simp
      · intro x hx hxf
        exact absurd hx hxf
      · omega

/-- Once as many rounds are left as there are numbers to settle, more rounds find no more. -/
theorem reachableRounds_add {bound : Nat} (hinner : ∀ x, next x ≠ [] → x < bound) (extra : Nat)
    {rounds : Nat} {seen frontier : List Nat} (hfrontier : ∀ x ∈ frontier, x ∈ seen)
    (hrounds : bound ≤ rounds + (settled bound seen frontier).card) :
    reachableRounds next (rounds + extra) seen frontier =
      reachableRounds next rounds seen frontier := by
  induction rounds generalizing seen frontier with
  | zero =>
    -- Everything below the bound has left the frontier, so no step leads on.
    have hall : settled bound seen frontier = Finset.range bound :=
      settled_eq_range (by omega)
    have hend : frontier.flatMap next = [] := by
      refine List.flatMap_eq_nil_iff.2 fun x hx => ?_
      by_contra hne
      have hlt : x ∈ Finset.range bound := Finset.mem_range.2 (hinner x hne)
      rw [← hall] at hlt
      exact (mem_settled.1 hlt).2.2 hx
    cases extra with
    | zero => rfl
    | succ extra =>
      simp only [reachableRounds, hend]
      rfl
  | succ rounds ih =>
    rw [Nat.add_right_comm]
    simp only [reachableRounds]
    split
    · rfl
    · rename_i fresh hne
      have hlt := card_settled_lt hinner hfrontier rfl hne
      exact ih (fun x hx => List.mem_append_left _ hx) (by omega)

/-- A bound on the rounds that lets everything be found makes no difference. -/
theorem reachableFrom_eq_of_le {bound rounds start : Nat} (hinner : ∀ x, next x ≠ [] → x < bound)
    (hrounds : bound ≤ rounds) :
    reachableFrom next rounds start = reachableFrom next bound start := by
  obtain ⟨extra, rfl⟩ := Nat.exists_eq_add_of_le hrounds
  exact reachableRounds_add hinner extra (fun _ hx => hx) (Nat.le_add_right _ _)

end Rounds

end PathQuery
