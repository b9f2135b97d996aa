import PathQuery.Pattern.Parser

/-!
# The normal form of patterns

* `Pattern.normal`: from the leaves up, a sequence directly inside a sequence and an alternation
  directly inside an alternation are spliced in, and what is left with a single part is that part;
* `Pattern.IsNormal`: there is nothing to splice in, and nothing has a single part;
* `isNormal_normal`, `normal_eq_self`: the normal form is normal, and normal patterns are left as
  they are.
-/

namespace PathQuery
namespace Pattern

/-- What a part contributes to the sequence around it. -/
def sequenceParts : Pattern → List Pattern
  | seq parts => parts
  | p => [p]

/-- What a part contributes to the alternation around it. -/
def alternationParts : Pattern → List Pattern
  | alt parts => parts
  | p => [p]

/-- A single part stands for itself. -/
def unlessSingle (join : List Pattern → Pattern) : List Pattern → Pattern
  | [p] => p
  | parts => join parts

mutual

def normal : Pattern → Pattern
  | edge direction types roles => edge direction types roles
  | seq parts => unlessSingle seq ((normalAll parts).flatMap sequenceParts)
  | alt parts => unlessSingle alt ((normalAll parts).flatMap alternationParts)
  | star inner => star inner.normal
  | plus inner => plus inner.normal
  | optional inner => optional inner.normal
  | power inner n => power inner.normal n
  | transpose inner => transpose inner.normal

def normalAll : List Pattern → List Pattern
  | [] => []
  | p :: ps => p.normal :: normalAll ps

end

def IsSequence : Pattern → Prop
  | seq _ => True
  | _ => False

def IsAlternation : Pattern → Prop
  | alt _ => True
  | _ => False

mutual

def IsNormal : Pattern → Prop
  | edge _ _ _ => True
  | seq parts => parts.length ≠ 1 ∧ (∀ p ∈ parts, ¬ p.IsSequence) ∧ AllNormal parts
  | alt parts => parts.length ≠ 1 ∧ (∀ p ∈ parts, ¬ p.IsAlternation) ∧ AllNormal parts
  | star inner => inner.IsNormal
  | plus inner => inner.IsNormal
  | optional inner => inner.IsNormal
  | power inner _ => inner.IsNormal
  | transpose inner => inner.IsNormal

def AllNormal : List Pattern → Prop
  | [] => True
  | p :: ps => p.IsNormal ∧ AllNormal ps

end

theorem normalAll_eq_map (ps : List Pattern) : normalAll ps = ps.map normal := by
  induction ps with
  | nil => rfl
  | cons p ps ih => rw [normalAll, ih, List.map_cons]

theorem allNormal_iff {ps : List Pattern} : AllNormal ps ↔ ∀ p ∈ ps, p.IsNormal := by
  induction ps with
  | nil => simp [AllNormal]
  | cons p ps ih => rw [AllNormal, ih, List.forall_mem_cons]

/-! ## Joining parts -/

theorem seqOf_eq (parts : List Pattern) :
    seqOf parts = unlessSingle seq (parts.flatMap sequenceParts) :=
  rfl

theorem altOf_eq (parts : List Pattern) :
    altOf parts = unlessSingle alt (parts.flatMap alternationParts) :=
  rfl

theorem normal_seq (parts : List Pattern) : (seq parts).normal = seqOf (parts.map normal) := by
  rw [normal, seqOf_eq, normalAll_eq_map]

theorem normal_alt (parts : List Pattern) : (alt parts).normal = altOf (parts.map normal) := by
  rw [normal, altOf_eq, normalAll_eq_map]

section Joining

variable {join : List Pattern → Pattern} {parts : List Pattern}

theorem unlessSingle_eq (h : parts.length ≠ 1) : unlessSingle join parts = join parts := by
  match parts, h with
  | [], _ => rfl
  | [_], h => exact absurd rfl h
  | _ :: _ :: _, _ => rfl

/-- Whatever holds of a single part and of several parts that are joined holds of the result. -/
theorem unlessSingle_induction {motive : Pattern → Prop} (single : ∀ p, parts = [p] → motive p)
    (several : parts.length ≠ 1 → motive (join parts)) : motive (unlessSingle join parts) := by
  match parts, single, several with
  | [], _, several => exact several (by simp)
  | [p], single, _ => exact single p rfl
  | _ :: _ :: _, _, several => exact several (by simp)

end Joining

/-! ## The normal form is normal -/

theorem IsNormal.of_mem_sequenceParts {p q : Pattern} (hp : p.IsNormal)
    (hq : q ∈ p.sequenceParts) : q.IsNormal ∧ ¬ q.IsSequence := by
  cases p with
  | seq parts =>
    rw [IsNormal, allNormal_iff] at hp
    exact ⟨hp.2.2 q hq, hp.2.1 q hq⟩
  | _ =>
    obtain rfl := List.mem_singleton.1 hq
    exact ⟨hp, not_false⟩

theorem IsNormal.of_mem_alternationParts {p q : Pattern} (hp : p.IsNormal)
    (hq : q ∈ p.alternationParts) : q.IsNormal ∧ ¬ q.IsAlternation := by
  cases p with
  | alt parts =>
    rw [IsNormal, allNormal_iff] at hp
    exact ⟨hp.2.2 q hq, hp.2.1 q hq⟩
  | _ =>
    obtain rfl := List.mem_singleton.1 hq
    exact ⟨hp, not_false⟩

mutual

theorem isNormal_normal : ∀ p : Pattern, p.normal.IsNormal
  | edge _ _ _ => trivial
  | seq parts => by
    have hparts : ∀ q ∈ (normalAll parts).flatMap sequenceParts,
        q.IsNormal ∧ ¬ q.IsSequence := by
      intro q hq
      obtain ⟨p, hp, hq⟩ := List.mem_flatMap.1 hq
      exact (isNormal_normalAll parts p hp).of_mem_sequenceParts hq
    rw [normal]
    refine unlessSingle_induction (fun p hp => (hparts p ?_).1) fun hlength => ?_
    · rw [hp]
      exact List.mem_singleton_self p
    · exact ⟨hlength, fun q hq => (hparts q hq).2, allNormal_iff.2 fun q hq => (hparts q hq).1⟩
  | alt parts => by
    have hparts : ∀ q ∈ (normalAll parts).flatMap alternationParts,
        q.IsNormal ∧ ¬ q.IsAlternation := by
      intro q hq
      obtain ⟨p, hp, hq⟩ := List.mem_flatMap.1 hq
      exact (isNormal_normalAll parts p hp).of_mem_alternationParts hq
    rw [normal]
    refine unlessSingle_induction (fun p hp => (hparts p ?_).1) fun hlength => ?_
    · rw [hp]
      exact List.mem_singleton_self p
    · exact ⟨hlength, fun q hq => (hparts q hq).2, allNormal_iff.2 fun q hq => (hparts q hq).1⟩
  | star inner => isNormal_normal inner
  | plus inner => isNormal_normal inner
  | optional inner => isNormal_normal inner
  | power inner _ => isNormal_normal inner
  | transpose inner => isNormal_normal inner

theorem isNormal_normalAll : ∀ ps : List Pattern, ∀ q ∈ normalAll ps, q.IsNormal
  | [], _, hq => absurd hq List.not_mem_nil
  | p :: ps, q, hq => by
    rcases List.mem_cons.1 hq with rfl | hq
    · exact isNormal_normal p
    · exact isNormal_normalAll ps q hq

end

/-! ## Normal patterns stay as they are -/

theorem sequenceParts_eq {p : Pattern} (h : ¬ p.IsSequence) : p.sequenceParts = [p] := by
  cases p with
  | seq parts => exact absurd trivial h
  | _ => rfl

theorem alternationParts_eq {p : Pattern} (h : ¬ p.IsAlternation) : p.alternationParts = [p] := by
  cases p with
  | alt parts => exact absurd trivial h
  | _ => rfl

theorem flatMap_eq_self {contribution : Pattern → List Pattern} {ps : List Pattern}
    (h : ∀ p ∈ ps, contribution p = [p]) : ps.flatMap contribution = ps := by
  rw [List.flatMap_def, List.map_congr_left h, ← List.flatMap_def, List.flatMap_singleton']

mutual

theorem normal_eq_self : ∀ p : Pattern, p.IsNormal → p.normal = p
  | edge _ _ _, _ => rfl
  | seq parts, h => by
    rw [IsNormal] at h
    rw [normal, normalAll_eq_self parts h.2.2,
      flatMap_eq_self fun p hp => sequenceParts_eq (h.2.1 p hp), unlessSingle_eq h.1]
  | alt parts, h => by
    rw [IsNormal] at h
    rw [normal, normalAll_eq_self parts h.2.2,
      flatMap_eq_self fun p hp => alternationParts_eq (h.2.1 p hp), unlessSingle_eq h.1]
  | star inner, h => congrArg star (normal_eq_self inner h)
  | plus inner, h => congrArg plus (normal_eq_self inner h)
  | optional inner, h => congrArg Pattern.optional (normal_eq_self inner h)
  | power inner n, h => congrArg (power · n) (normal_eq_self inner h)
  | transpose inner, h => congrArg transpose (normal_eq_self inner h)

theorem normalAll_eq_self : ∀ ps : List Pattern, AllNormal ps → normalAll ps = ps
  | [], _ => rfl
  | p :: ps, h => by rw [normalAll, normal_eq_self p h.1, normalAll_eq_self ps h.2]

end

/-- A sequence of one part is that part. -/
theorem normal_seq_singleton (p : Pattern) : (seq [p]).normal = p.normal := by
  have h := isNormal_normal p
  rw [normal, normalAll, normalAll, List.flatMap_singleton]
  generalize p.normal = q at h
  cases q with
  | seq parts => exact unlessSingle_eq h.1
  | _ => rfl

/-- An alternation of one part is that part. -/
theorem normal_alt_singleton (p : Pattern) : (alt [p]).normal = p.normal := by
  have h := isNormal_normal p
  rw [normal, normalAll, normalAll, List.flatMap_singleton]
  generalize p.normal = q at h
  cases q with
  | alt parts => exact unlessSingle_eq h.1
  | _ => rfl

end Pattern
end PathQuery
