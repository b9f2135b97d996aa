import PathQuery.Evaluation.Rules
import PathQuery.Proofs.Numeric.Binary64

/-!
# Equal values and ordered values

Equality and order agree with each other, and both are what one expects of them, with one exception:
an integer is compared with other integers as it is but with floating-point numbers as the nearest of
these, so one of them can equal two integers that differ.

* `Value.Occurs`, `Value.Proper`: the parts of a value; numbers that can be compared;
* `Value.Ordered`, `Value.Agree`: when values are ordered, and when they are equal;
* `order_swap`, `same_comm`, `same_self`, `less_trans`: what holds of all proper values;
* `Value.Conflates`: the exception, wherever it is met in two lists;
* `same_trans_iff`: equality is transitive if and only if the exception is not met;
* `Value.Coherent`, `comparison_coherent`: all of it;
* `same_not_transitive`: the exception itself.
-/

namespace PathQuery

namespace Binary64

variable {x y : Binary64}

theorem compare_eq_some_iff {o : Ordering} : x.compare y = some o ↔
    x.isNaN = false ∧ y.isNaN = false ∧ Ord.compare x.key y.key = o := by
  unfold compare
  cases x.isNaN <;> cases y.isNaN <;> simp

theorem compare_eq_lt_iff : x.compare y = some .lt ↔
    x.isNaN = false ∧ y.isNaN = false ∧ x.key < y.key := by
  rw [compare_eq_some_iff, Int.compare_eq_lt]

theorem compare_eq_eq_iff : x.compare y = some .eq ↔
    x.isNaN = false ∧ y.isNaN = false ∧ x.key = y.key := by
  rw [compare_eq_some_iff, Std.compare_eq_iff_eq]

theorem compare_swap (x y : Binary64) : y.compare x = (x.compare y).map Ordering.swap := by
  unfold compare
  rw [Bool.or_comm]
  split
  · rfl
  · exact congrArg some Std.OrientedCmp.eq_swap

theorem key_ofInt_le {i j : Int} (hi : IsInt64 i) (hj : IsInt64 j) (h : i < j) :
    (ofInt i).key ≤ (ofInt j).key := by
  have hunits := (roundsTo_ofInt hi).units_le (roundsTo_ofInt hj) h
  by_contra hlt
  exact absurd (units_lt (Int.not_le.1 hlt)) (Int.not_lt.2 hunits)

end Binary64

open Binary64 (IsInt64 ofInt compare_eq_lt_iff compare_eq_eq_iff)

namespace Value

/-! ## Parts -/

/-- The value itself, or what occurs in an item of the list that it is. -/
inductive Occurs (part : Value) : Value → Prop where
  | self : Occurs part part
  | item {items : List Value} {v : Value} : v ∈ items → Occurs part v → Occurs part (list items)

/-- Integers have 64 bits, and no floating-point number is NaN. -/
structure Proper (v : Value) : Prop where
  int {i : Int} : Occurs (int i) v → IsInt64 i
  float {x : Binary64} : Occurs (float x) v → x.isNaN = false

/-- Integers that are numbers of the other kind, too. -/
def Exact (v : Value) : Prop :=
  ∀ i, Occurs (int i) v → i.natAbs ≤ 2 ^ 53

theorem Proper.item {items : List Value} {v : Value} (h : (list items).Proper) (hv : v ∈ items) :
    v.Proper :=
  ⟨fun hi => h.int (.item hv hi), fun hx => h.float (.item hv hx)⟩

/-- Lists hold values again, to any depth. -/
@[elab_as_elim]
theorem nested_induction {motive : Value → Prop}
    (leaf : ∀ v, (∀ items, v ≠ list items) → motive v)
    (nested : ∀ items, (∀ v ∈ items, motive v) → motive (list items)) : ∀ v, motive v
  | list items => nested items fun v _ => nested_induction leaf nested v
  | null | bool _ | int _ | float _ | text _ | vertex _ | edge _ | vertexSet _ | automaton _ _
  | pathSystem _ _ => leaf _ nofun

/-! ## Order -/

/-- The pairs that are ordered. -/
inductive Ordered : Value → Value → Ordering → Prop where
  | int {i j : Int} {o : Ordering} : compare i j = o → Ordered (int i) (int j) o
  | intFloat {i : Int} {x : Binary64} {o : Ordering} : (ofInt i).compare x = some o →
    Ordered (int i) (float x) o
  | floatInt {x : Binary64} {i : Int} {o : Ordering} : x.compare (ofInt i) = some o →
    Ordered (float x) (int i) o
  | float {x y : Binary64} {o : Ordering} : x.compare y = some o → Ordered (float x) (float y) o
  | text {s t : String} {o : Ordering} : compare s t = o → Ordered (text s) (text t) o
  | bool {b c : Bool} {o : Ordering} : compare b c = o → Ordered (bool b) (bool c) o
  | vertex {v w : Nat} {o : Ordering} : compare v w = o → Ordered (vertex v) (vertex w) o

/-- The kinds of values of which each has an order. -/
def IsOrderable : Value → Prop
  | int _ | float _ | text _ | bool _ | vertex _ => True
  | _ => False

variable {a b c : Value} {o : Ordering}

theorem order_eq_some_iff : order a b = some o ↔ Ordered a b o := by
  constructor
  · intro h
    unfold order at h
    split at h
    · exact .int (Option.some.inj h)
    · exact .intFloat h
    · exact .floatInt h
    · exact .float h
    · exact .text (Option.some.inj h)
    · exact .bool (Option.some.inj h)
    · exact .vertex (Option.some.inj h)
    · cases h
  · rintro (h | h | h | h | h | h | h)
    · exact congrArg some h
    · exact h
    · exact h
    · exact h
    · exact congrArg some h
    · exact congrArg some h
    · exact congrArg some h

theorem Ordered.isOrderable (h : Ordered a b o) : a.IsOrderable := by
  cases h <;> trivial

theorem order_swap (a b : Value) : order b a = (order a b).map Ordering.swap := by
  cases a with
  | int i =>
    cases b with
    | int j => exact congrArg some Std.OrientedCmp.eq_swap
    | float y => exact Binary64.compare_swap (ofInt i) y
    | _ => rfl
  | float x =>
    cases b with
    | int j => exact Binary64.compare_swap x (ofInt j)
    | float y => exact Binary64.compare_swap x y
    | _ => rfl
  | text s =>
    cases b with
    | text t => exact congrArg some Std.OrientedCmp.eq_swap
    | _ => rfl
  | bool p =>
    cases b with
    | bool q => exact congrArg some Std.OrientedCmp.eq_swap
    | _ => rfl
  | vertex v =>
    cases b with
    | vertex w => exact congrArg some Std.OrientedCmp.eq_swap
    | _ => rfl
  | _ => cases b <;> rfl

/-- A detour through the other kind of numbers does not make less what is not. -/
theorem less_trans (ha : a.Proper) (hb : b.Proper) (hc : c.Proper) (hab : order a b = some .lt)
    (hbc : order b c = some .lt) : order a c = some .lt := by
  rw [order_eq_some_iff] at hab hbc ⊢
  cases hab with
  | @int i j _ hij =>
    have hi := ha.int .self
    have hj := hb.int .self
    have hle := Binary64.key_ofInt_le hi hj (Int.compare_eq_lt.1 hij)
    cases hbc with
    | int hjk => exact .int (Std.TransCmp.lt_trans hij hjk)
    | intFloat hjz =>
      obtain ⟨_, hz, hlt⟩ := compare_eq_lt_iff.1 hjz
      exact .intFloat (compare_eq_lt_iff.2 ⟨Binary64.isNaN_ofInt hi, hz, by omega⟩)
  | intFloat hiy =>
    obtain ⟨hi, hy, hlt⟩ := compare_eq_lt_iff.1 hiy
    cases hbc with
    | @floatInt _ k _ hyk =>
      obtain ⟨_, hk, hlt'⟩ := compare_eq_lt_iff.1 hyk
      refine .int (Int.compare_eq_lt.2 ?_)
      by_contra hle
      -- Else the greater integer would have become the smaller number.
      rcases Int.lt_or_eq_of_le (Int.not_lt.1 hle) with hki | rfl
      · have hkey := Binary64.key_ofInt_le (hc.int .self) (ha.int .self) hki
        omega
      · omega
    | float hyz =>
      obtain ⟨_, hz, hlt'⟩ := compare_eq_lt_iff.1 hyz
      exact .intFloat (compare_eq_lt_iff.2 ⟨hi, hz, by omega⟩)
  | floatInt hxj =>
    obtain ⟨hx, _, hlt⟩ := compare_eq_lt_iff.1 hxj
    cases hbc with
    | int hjk =>
      have hk := hc.int .self
      have hle := Binary64.key_ofInt_le (hb.int .self) hk (Int.compare_eq_lt.1 hjk)
      exact .floatInt (compare_eq_lt_iff.2 ⟨hx, Binary64.isNaN_ofInt hk, by omega⟩)
    | intFloat hjz =>
      obtain ⟨_, hz, hlt'⟩ := compare_eq_lt_iff.1 hjz
      exact .float (compare_eq_lt_iff.2 ⟨hx, hz, by omega⟩)
  | float hxy =>
    obtain ⟨hx, _, hlt⟩ := compare_eq_lt_iff.1 hxy
    cases hbc with
    | floatInt hyk =>
      obtain ⟨_, hk, hlt'⟩ := compare_eq_lt_iff.1 hyk
      exact .floatInt (compare_eq_lt_iff.2 ⟨hx, hk, by omega⟩)
    | float hyz =>
      obtain ⟨_, hz, hlt'⟩ := compare_eq_lt_iff.1 hyz
      exact .float (compare_eq_lt_iff.2 ⟨hx, hz, by omega⟩)
  | text hst =>
    cases hbc with
    | text htu => exact .text (Std.TransCmp.lt_trans hst htu)
  | bool hpq =>
    cases hbc with
    | bool hqr => exact .bool (Std.TransCmp.lt_trans hpq hqr)
  | vertex hvw =>
    cases hbc with
    | vertex hwu => exact .vertex (Std.TransCmp.lt_trans hvw hwu)

/-! ## Equality -/

theorem same_eq_order (h : a.IsOrderable) (b : Value) : same a b = (order a b == some .eq) := by
  cases a with
  | int _ | float _ | text _ | bool _ | vertex _ => cases b <;> simp [same]
  | _ => exact h.elim

/-- The pairs that are equal; the items of equal lists are. -/
inductive Agree : Value → Value → Prop where
  | null : Agree null null
  | ordered {a b : Value} : order a b = some .eq → Agree a b
  | edge {e f : Incidence} : e.canonical = f.canonical → Agree (edge e) (edge f)
  | vertexSet (s : IdSet) : Agree (vertexSet s) (vertexSet s)
  | list {xs ys : List Value} : sameAll xs ys = true → Agree (list xs) (list ys)
  | automaton (h : Nat) (a b : Automaton) : Agree (automaton h a) (automaton h b)
  | pathSystem (h : Nat) (ps qs : PathSystem) : Agree (pathSystem h ps) (pathSystem h qs)

theorem same_iff : same a b = true ↔ Agree a b := by
  constructor
  · intro h
    unfold same at h
    split at h
    · exact .null
    · exact .edge (eq_of_beq h)
    · rw [eq_of_beq h]
      exact .vertexSet _
    · exact .list h
    · rw [eq_of_beq h]
      exact .automaton _ _ _
    · rw [eq_of_beq h]
      exact .pathSystem _ _ _
    · exact .ordered (eq_of_beq h)
  · rintro (_ | h | h | s | h | _ | _)
    · simp [same]
    · rw [same_eq_order (order_eq_some_iff.1 h).isOrderable, h]
      rfl
    · simp [same, h]
    · simp [same]
    · simpa [same] using h
    · simp [same]
    · simp [same]

/-- Two lists are equal place by place. -/
theorem sameAll_iff {xs ys : List Value} : sameAll xs ys = true ↔ xs.length = ys.length ∧
    ∀ (n : Nat) (x y : Value), xs[n]? = some x → ys[n]? = some y → same x y = true := by
  induction xs generalizing ys with
  | nil => cases ys <;> simp [sameAll]
  | cons x xs ih =>
    cases ys with
    | nil => simp [sameAll]
    | cons y ys =>
      rw [sameAll, Bool.and_eq_true, ih, List.length_cons, List.length_cons, Nat.succ_inj]
      constructor
      · rintro ⟨hhead, hlength, htail⟩
        refine ⟨hlength, fun n u v hu hv => ?_⟩
        cases n with
        | zero =>
          cases hu
          cases hv
          exact hhead
        | succ n => exact htail n u v hu hv
      · rintro ⟨hlength, hall⟩
        exact ⟨hall 0 x y rfl rfl, hlength, fun n => hall (n + 1)⟩

theorem same_of_same (h : same a b = true) : same b a = true := by
  induction a using nested_induction generalizing b with
  | leaf a hleaf =>
    rw [same_iff] at h ⊢
    cases h with
    | null => exact .null
    | ordered horder =>
      refine .ordered ?_
      rw [order_swap, horder]
      rfl
    | edge hef => exact .edge hef.symm
    | vertexSet s => exact .vertexSet s
    | list _ => exact absurd rfl (hleaf _)
    | automaton h a b => exact .automaton h b a
    | pathSystem h ps qs => exact .pathSystem h qs ps
  | nested xs ih =>
    rw [same_iff] at h ⊢
    cases h with
    | ordered horder => cases order_eq_some_iff.1 horder
    | list hall =>
      obtain ⟨hlength, hitems⟩ := sameAll_iff.1 hall
      refine .list (sameAll_iff.2 ⟨hlength.symm, fun n y x hy hx => ?_⟩)
      exact ih x (List.mem_of_getElem? hx) (hitems n x y hx hy)

theorem same_comm (a b : Value) : same b a = same a b :=
  Bool.eq_iff_iff.2 ⟨same_of_same, same_of_same⟩

theorem same_self (ha : a.Proper) : same a a = true := by
  induction a using nested_induction with
  | leaf a hleaf =>
    rw [same_iff]
    cases a with
    | null => exact .null
    | int i => exact .ordered (congrArg some Std.ReflCmp.compare_self)
    | float x =>
      have hx := ha.float .self
      exact .ordered (compare_eq_eq_iff.2 ⟨hx, hx, rfl⟩)
    | text s => exact .ordered (congrArg some Std.ReflCmp.compare_self)
    | bool p => exact .ordered (congrArg some Std.ReflCmp.compare_self)
    | vertex v => exact .ordered (congrArg some Std.ReflCmp.compare_self)
    | edge e => exact .edge rfl
    | vertexSet s => exact .vertexSet s
    | list items => exact absurd rfl (hleaf items)
    | automaton h a => exact .automaton h a a
    | pathSystem h ps => exact .pathSystem h ps ps
  | nested items ih =>
    refine same_iff.2 (.list (sameAll_iff.2 ⟨rfl, fun n x y hx hy => ?_⟩))
    rw [hx] at hy
    cases hy
    exact ih x (List.mem_of_getElem? hx) (ha.item (List.mem_of_getElem? hx))

/-! ## Transitivity and what stands against it -/

/-- At some place the middle value has a floating-point number where the others have integers that
differ. -/
inductive Conflates : Value → Value → Value → Prop where
  | number {i j : Int} (x : Binary64) : i ≠ j → Conflates (int i) (float x) (int j)
  | item {as bs cs : List Value} {n : Nat} {a b c : Value} : as[n]? = some a → bs[n]? = some b →
    cs[n]? = some c → Conflates a b c → Conflates (list as) (list bs) (list cs)

theorem not_same_of_conflates (h : Conflates a b c) : same a c ≠ true := by
  induction h with
  | number x hij => simpa [same, order] using hij
  | item ha _ hc _ ih =>
    intro hsame
    rw [same, sameAll_iff] at hsame
    exact ih (hsame.2 _ _ _ ha hc)

theorem order_eq_trans (hab : order a b = some .eq) (hbc : order b c = some .eq)
    (h : ¬ Conflates a b c) : order a c = some .eq := by
  rw [order_eq_some_iff] at hab hbc ⊢
  cases hab with
  | int hij =>
    obtain rfl := Std.compare_eq_iff_eq.1 hij
    exact hbc
  | @intFloat i y _ hiy =>
    obtain ⟨hi, hy, heq⟩ := compare_eq_eq_iff.1 hiy
    cases hbc with
    | @floatInt _ k _ _ =>
      have hik : i = k := by
        by_contra hne
        exact h (.number y hne)
      exact .int (Std.compare_eq_iff_eq.2 hik)
    | float hyz =>
      obtain ⟨_, hz, heq'⟩ := compare_eq_eq_iff.1 hyz
      exact .intFloat (compare_eq_eq_iff.2 ⟨hi, hz, heq.trans heq'⟩)
  | floatInt hxj =>
    obtain ⟨hx, hj, heq⟩ := compare_eq_eq_iff.1 hxj
    cases hbc with
    | int hjk =>
      obtain rfl := Std.compare_eq_iff_eq.1 hjk
      exact .floatInt hxj
    | intFloat hjz =>
      obtain ⟨_, hz, heq'⟩ := compare_eq_eq_iff.1 hjz
      exact .float (compare_eq_eq_iff.2 ⟨hx, hz, heq.trans heq'⟩)
  | float hxy =>
    obtain ⟨hx, _, heq⟩ := compare_eq_eq_iff.1 hxy
    cases hbc with
    | floatInt hyk =>
      obtain ⟨_, hk, heq'⟩ := compare_eq_eq_iff.1 hyk
      exact .floatInt (compare_eq_eq_iff.2 ⟨hx, hk, heq.trans heq'⟩)
    | float hyz =>
      obtain ⟨_, hz, heq'⟩ := compare_eq_eq_iff.1 hyz
      exact .float (compare_eq_eq_iff.2 ⟨hx, hz, heq.trans heq'⟩)
  | text hst =>
    obtain rfl := Std.compare_eq_iff_eq.1 hst
    exact hbc
  | bool hpq =>
    obtain rfl := Std.compare_eq_iff_eq.1 hpq
    exact hbc
  | vertex hvw =>
    obtain rfl := Std.compare_eq_iff_eq.1 hvw
    exact hbc

theorem same_trans (hab : same a b = true) (hbc : same b c = true) (h : ¬ Conflates a b c) :
    same a c = true := by
  induction b using nested_induction generalizing a c with
  | leaf b hleaf =>
    rw [same_iff] at hab hbc ⊢
    cases hab with
    | null => exact hbc
    | ordered horder =>
      cases hbc with
      | ordered horder' => exact .ordered (order_eq_trans horder horder' h)
      | list _ => exact absurd rfl (hleaf _)
      | _ => cases order_eq_some_iff.1 horder
    | @edge e f hef =>
      cases hbc with
      | ordered horder => cases order_eq_some_iff.1 horder
      | edge hfg => exact .edge (hef.trans hfg)
    | vertexSet s => exact hbc
    | list _ => exact absurd rfl (hleaf _)
    | automaton =>
      cases hbc with
      | ordered horder => cases order_eq_some_iff.1 horder
      | automaton => exact .automaton _ _ _
    | pathSystem =>
      cases hbc with
      | ordered horder => cases order_eq_some_iff.1 horder
      | pathSystem => exact .pathSystem _ _ _
  | nested ys ih =>
    rw [same_iff] at hab hbc ⊢
    cases hab with
    | ordered horder => cases order_eq_some_iff.1 horder
    | @list xs _ hxs =>
      cases hbc with
      | ordered horder => cases order_eq_some_iff.1 horder
      | @list _ zs hzs =>
        obtain ⟨hlength, hxy⟩ := sameAll_iff.1 hxs
        obtain ⟨hlength', hyz⟩ := sameAll_iff.1 hzs
        refine .list (sameAll_iff.2 ⟨hlength.trans hlength', fun n x z hx hz => ?_⟩)
        have hn : n < ys.length := hlength' ▸ (List.getElem?_eq_some_iff.1 hz).1
        have hy : ys[n]? = some ys[n] := List.getElem?_eq_getElem hn
        exact ih ys[n] (List.getElem_mem hn) (hxy n _ _ hx hy) (hyz n _ _ hy hz)
          fun hconflates => h (.item hx hy hz hconflates)

theorem same_trans_iff (hab : same a b = true) (hbc : same b c = true) :
    same a c = true ↔ ¬ Conflates a b c :=
  ⟨fun hac hconflates => not_same_of_conflates hconflates hac, same_trans hab hbc⟩

/-- Integers that are numbers of the other kind cannot be confused by one. -/
theorem not_conflates_of_exact (ha : a.Exact) (hc : c.Exact) (hab : same a b = true)
    (hbc : same b c = true) : ¬ Conflates a b c := by
  intro h
  induction h with
  | @number i j x hij =>
    have hi := Binary64.units_ofInt (ha i .self)
    have hj := Binary64.units_ofInt (hc j .self)
    simp only [same, order, beq_iff_eq] at hab hbc
    have hkeys : (ofInt i).key = (ofInt j).key :=
      (compare_eq_eq_iff.1 hab).2.2.trans (compare_eq_eq_iff.1 hbc).2.2
    have hunits := Binary64.units_eq_iff.2 hkeys
    rw [hi, hj] at hunits
    exact hij (Int.eq_of_mul_eq_mul_right (Int.natCast_ne_zero.2 Binary64.unitsOfOne_pos.ne') hunits)
  | item hxa hxb hxc _ ih =>
    rw [same, sameAll_iff] at hab hbc
    exact ih (fun i hi => ha i (.item (List.mem_of_getElem? hxa) hi))
      (fun i hi => hc i (.item (List.mem_of_getElem? hxc) hi)) (hab.2 _ _ _ hxa hxb)
      (hbc.2 _ _ _ hxb hxc)

/-- The one value does not conflate the other two, nor either of these the one with the other. -/
def Apart (a b c : Value) : Prop :=
  ¬ Conflates a b c ∧ ¬ Conflates a c b

theorem same_congr_right (hbc : same b c = true) (h : Apart a b c) : same a b = same a c :=
  Bool.eq_iff_iff.2 ⟨fun hab => same_trans hab hbc h.1,
    fun hac => same_trans hac (same_of_same hbc) h.2⟩

theorem contains_congr {items : List Value} (hbc : same b c = true)
    (h : ∀ item ∈ items, Apart item b c) :
    Builtin.contains (list items) b = Builtin.contains (list items) c := by
  have hany : items.any (same · b) = items.any (same · c) := by
    rw [Bool.eq_iff_iff, List.any_eq_true, List.any_eq_true]
    refine exists_congr fun item => and_congr_right fun hitem => ?_
    rw [same_congr_right hbc (h item hitem)]
  rw [Builtin.contains, Builtin.contains, hany]

/-! ## All laws -/

/-- What holds of equality and order between three values. -/
structure Coherent (a b c : Value) : Prop where
  same_self : same a a = true
  same_comm : same b a = same a b
  order_swap : order b a = (order a b).map Ordering.swap
  less_trans : order a b = some .lt → order b c = some .lt → order a c = some .lt
  same_iff_order : a.IsOrderable → (same a b = true ↔ order a b = some .eq)
  same_trans : same a b = true → same b c = true → (same a c = true ↔ ¬ Conflates a b c)
  same_trans_of_exact : a.Exact → c.Exact → same a b = true → same b c = true →
    same a c = true
  compare_congr {op : CompareOp} : op = .eq ∨ op = .ne → same b c = true → Apart a b c →
    Evaluation.compareValues op a b = Evaluation.compareValues op a c ∧
      Evaluation.compareValues op b a = Evaluation.compareValues op c a
  contains_congr (items : List Value) : same b c = true →
    (∀ item ∈ items, Apart item b c) →
      Builtin.contains (list items) b = Builtin.contains (list items) c
  /-- Numbers are ordered as what they stand for, infinities included. -/
  float_order {x y : Binary64} : Occurs (float x) a → Occurs (float y) b →
    order (float x) (float y) = some (cmp x.exact y.exact)
  /-- An integer is ordered as the number to which it is rounded. -/
  int_order {i : Int} {y : Binary64} : Occurs (int i) a → Occurs (float y) b →
    Binary64.RoundsTo i (ofInt i) ∧ order (int i) (float y) = some (cmp (ofInt i).exact y.exact)

theorem comparison_coherent (ha : a.Proper) (hb : b.Proper) (hc : c.Proper) :
    Coherent a b c where
  same_self := same_self ha
  same_comm := same_comm a b
  order_swap := order_swap a b
  less_trans := less_trans ha hb hc
  same_iff_order horderable := by rw [same_eq_order horderable, beq_iff_eq]
  same_trans := same_trans_iff
  same_trans_of_exact ha hc hab hbc := same_trans hab hbc (not_conflates_of_exact ha hc hab hbc)
  compare_congr hop hbc hapart := by
    have hright := same_congr_right hbc hapart
    have hleft : same b a = same c a := by rw [← same_comm, hright, same_comm]
    rcases hop with rfl | rfl <;> simp only [Evaluation.compareValues, hright, hleft, and_self]
  contains_congr _ := contains_congr
  float_order hx hy := Binary64.compare_eq_cmp_exact (ha.float hx) (hb.float hy)
  int_order hi hy :=
    ⟨Binary64.roundsTo_ofInt (ha.int hi),
      Binary64.compare_eq_cmp_exact (Binary64.isNaN_ofInt (ha.int hi)) (hb.float hy)⟩

theorem proper_int {i : Int} (hi : IsInt64 i) : (int i).Proper where
  int h := by
    cases h
    exact hi
  float h := by cases h

theorem proper_float {x : Binary64} (hx : x.isNaN = false) : (float x).Proper where
  int h := by cases h
  float h := by
    cases h
    exact hx

/-- The floating-point number `2 ^ 53`, after which every other integer is left out. -/
def lastExact : Binary64 :=
  ⟨0x4340000000000000⟩

theorem comparison_coherent_lastExact :
    (float lastExact).Proper ∧ (int (2 ^ 53)).Proper ∧ (int (2 ^ 53 + 1)).Proper ∧
      Coherent (float lastExact) (int (2 ^ 53)) (int (2 ^ 53 + 1)) := by
  have hfloat : (float lastExact).Proper := proper_float (by decide)
  have hint : (int (2 ^ 53)).Proper := proper_int (by decide)
  have hnext : (int (2 ^ 53 + 1)).Proper := proper_int (by decide)
  exact ⟨hfloat, hint, hnext, comparison_coherent hfloat hint hnext⟩

/-- Two integers that differ are equal to one number, which is in a list in which one of them is
not. -/
theorem same_not_transitive :
    (int (2 ^ 53)).Proper ∧ (float lastExact).Proper ∧ (int (2 ^ 53 + 1)).Proper ∧
      same (int (2 ^ 53)) (float lastExact) = true ∧
      same (float lastExact) (int (2 ^ 53 + 1)) = true ∧
      same (int (2 ^ 53)) (int (2 ^ 53 + 1)) = false ∧
      Builtin.contains (list [int (2 ^ 53 + 1)]) (float lastExact) = .ok (.bool true) ∧
      Builtin.contains (list [int (2 ^ 53 + 1)]) (int (2 ^ 53)) = .ok (.bool false) := by
  refine ⟨proper_int (by decide), proper_float (by decide), proper_int (by decide),
    by decide, by decide, by decide, ?_, ?_⟩
  · exact congrArg (fun found => Except.ok (bool found)) (by decide)
  · exact congrArg (fun found => Except.ok (bool found)) (by decide)

end Value
end PathQuery
