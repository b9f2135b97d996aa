import PathQuery.Proofs.Pattern.RoundTrip

/-!
# Canonical patterns

What is read from a text is in normal form, and all its names and numbers can be written again.  So
reading and writing lead back to each other from the first reading on.

* `Pattern.Canonical`: at least two parts wherever parts are joined, nothing to splice in, names and
  exponents that can be written;
* `canonical_iff`: this is what is normal and can be written;
* `Grammar.Written.writable`: a derivation names nothing that cannot be written;
* `writable_normal`: neither does its normal form;
* `canonical_of_ofText`: whatever a text is read as is canonical, and is read back from its written
  form, which is written again in the same way.
-/

namespace PathQuery
namespace Pattern

open PathQuery.Parser Grammar

/-! ## Canonical patterns -/

mutual

def Canonical : Pattern → Prop
  | edge _ types roles =>
    (∀ t ∈ types, IsName isTypeNameChar t.name.toList) ∧ ∀ r ∈ roles, IsName isNameChar r.toList
  | seq parts => 2 ≤ parts.length ∧ (∀ p ∈ parts, ¬ p.IsSequence) ∧ AllCanonical parts
  | alt parts => 2 ≤ parts.length ∧ (∀ p ∈ parts, ¬ p.IsAlternation) ∧ AllCanonical parts
  | star inner => inner.Canonical
  | plus inner => inner.Canonical
  | optional inner => inner.Canonical
  | power inner n => inner.Canonical ∧ n ≤ maxExponent
  | transpose inner => inner.Canonical

def AllCanonical : List Pattern → Prop
  | [] => True
  | p :: ps => p.Canonical ∧ AllCanonical ps

end

theorem writableAll_iff {ps : List Pattern} :
    writableAll ps = true ↔ ∀ p ∈ ps, p.writable = true := by
  induction ps with
  | nil => simp [writableAll]
  | cons p ps ih => rw [writableAll, Bool.and_eq_true, ih, List.forall_mem_cons]

/-- A join with at least two parts is one that is not empty and has not one part. -/
theorem two_le_length_iff {ps : List Pattern} :
    2 ≤ ps.length ↔ ps.length ≠ 1 ∧ (!ps.isEmpty) = true := by
  match ps with
  | [] => simp
  | [_] => simp
  | _ :: _ :: _ => simp

mutual

theorem canonical_iff : ∀ p : Pattern, p.Canonical ↔ p.IsNormal ∧ p.writable = true
  | edge _ types roles => by
    simp only [Canonical, IsNormal, writable, Bool.and_eq_true, List.all_eq_true, isName_iff,
      true_and]
  | seq parts => by
    rw [Canonical, IsNormal, writable, two_le_length_iff, allCanonical_iff parts, Bool.and_eq_true]
    grind
  | alt parts => by
    rw [Canonical, IsNormal, writable, two_le_length_iff, allCanonical_iff parts, Bool.and_eq_true]
    grind
  | star inner => canonical_iff inner
  | plus inner => canonical_iff inner
  | optional inner => canonical_iff inner
  | power inner n => by
    rw [Canonical, IsNormal, writable, canonical_iff inner, Bool.and_eq_true, decide_eq_true_eq,
      and_assoc]
  | transpose inner => canonical_iff inner

theorem allCanonical_iff : ∀ ps : List Pattern,
    AllCanonical ps ↔ AllNormal ps ∧ writableAll ps = true
  | [] => by simp [AllCanonical, AllNormal, writableAll]
  | p :: ps => by
    rw [AllCanonical, AllNormal, writableAll, canonical_iff p, allCanonical_iff ps,
      Bool.and_eq_true, and_and_and_comm]

end

/-! ## What is derived can be written -/

/-- What an item of a restriction names. -/
def RestrictionItem.writable : RestrictionItem → Bool
  | .type term => isName isTypeNameChar term.name
  | .role name => isName isNameChar name

theorem Grammar.Item.writable {cs : List Char} {i : RestrictionItem} (h : Item cs i) :
    i.writable = true := by
  cases h with
  | role h => exact isName_iff.2 (by rwa [String.toList_ofList])
  | forbidden h => exact isName_iff.2 (by rwa [String.toList_ofList])
  | allowed h => exact isName_iff.2 (by rwa [String.toList_ofList])

theorem Grammar.Items.writable {cs : List Char} {is : List RestrictionItem} (h : Items cs is) :
    ∀ i ∈ is, i.writable = true := by
  induction h with
  | one first =>
    obtain ⟨_, hitem, _⟩ := first
    exact List.forall_mem_singleton.2 hitem.writable
  | more first _ ih =>
    obtain ⟨_, hitem, _⟩ := first
    exact List.forall_mem_cons.2 ⟨hitem.writable, ih⟩

theorem writable_edge (direction : Direction) (is : List RestrictionItem)
    (h : ∀ i ∈ is, i.writable = true) :
    (edge direction (typesOf is) (rolesOf is)).writable = true := by
  rw [writable, Bool.and_eq_true, List.all_eq_true, List.all_eq_true]
  constructor
  · intro t ht
    obtain ⟨i, hi, heq⟩ := List.mem_filterMap.1 ht
    cases i with
    | type term =>
      obtain rfl := Option.some.inj heq
      exact h _ hi
    | role _ => cases heq
  · intro r hr
    obtain ⟨i, hi, heq⟩ := List.mem_filterMap.1 hr
    cases i with
    | type _ => cases heq
    | role name =>
      obtain rfl := Option.some.inj heq
      exact h _ hi

theorem Grammar.Operator.writable {cs : List Char} {op : Pattern → Pattern} (h : Operator cs op)
    {p : Pattern} (hp : p.writable = true) : (op p).writable = true := by
  cases h with
  | power _ _ hsmall => simpa [Pattern.writable, hp] using hsmall
  | _ => exact hp

theorem writable_foldl {ds : List Char} {ops : List (Pattern → Pattern)}
    (h : Repeated Operator ds ops) {p : Pattern} (hp : p.writable = true) :
    (ops.foldl (fun p op => op p) p).writable = true := by
  induction h generalizing p with
  | nil => exact hp
  | cons hop _ ih => exact ih (hop.writable hp)

-- The induction follows the derivation: a join has the parts of its rule, and at least the first.
mutual

theorem Grammar.Atom.writable : ∀ {cs : List Char} {tree : Pattern}, Atom cs tree →
    tree.writable = true
  | _, _, .arrow direction => writable_edge direction [] (by simp)
  | _, _, .restricted direction _ items => writable_edge direction _ items.writable
  | _, _, .group _ inner _ _ => inner.writable

theorem Grammar.Postfixed.writable : ∀ {cs : List Char} {tree : Pattern}, Postfixed cs tree →
    tree.writable = true
  | _, _, .intro operand operators => writable_foldl operators operand.writable

theorem Grammar.Sequence.writable : ∀ {cs : List Char} {tree : Pattern}, Sequence cs tree →
    tree.writable = true
  | _, _, .one _ first _ => by
    simp [Pattern.writable, writableAll, first.writable]
  | _, _, .more _ first others => by
    have hothers := others.writable
    rw [Pattern.writable, Bool.and_eq_true] at hothers
    simp [Pattern.writable, writableAll, first.writable, hothers.2]

theorem Grammar.Alternation.writable : ∀ {cs : List Char} {tree : Pattern}, Alternation cs tree →
    tree.writable = true
  | _, _, .one first => by
    simp [Pattern.writable, writableAll, first.writable]
  | _, _, .more first _ _ others => by
    have hothers := others.writable
    rw [Pattern.writable, Bool.and_eq_true] at hothers
    simp [Pattern.writable, writableAll, first.writable, hothers.2]

end

theorem Grammar.Written.writable {cs : List Char} {tree : Pattern} (h : Written cs tree) :
    tree.writable = true := by
  cases h with
  | intro _ alternation _ => exact alternation.writable

/-! ## So can its normal form -/

theorem sequenceParts_writable {p : Pattern} (hp : p.writable = true) :
    p.sequenceParts ≠ [] ∧ ∀ q ∈ p.sequenceParts, q.writable = true := by
  cases p with
  | seq parts =>
    rw [writable, Bool.and_eq_true] at hp
    exact ⟨by simpa [sequenceParts] using hp.1, writableAll_iff.1 hp.2⟩
  | _ => exact ⟨List.cons_ne_nil _ _, List.forall_mem_singleton.2 hp⟩

theorem alternationParts_writable {p : Pattern} (hp : p.writable = true) :
    p.alternationParts ≠ [] ∧ ∀ q ∈ p.alternationParts, q.writable = true := by
  cases p with
  | alt parts =>
    rw [writable, Bool.and_eq_true] at hp
    exact ⟨by simpa [alternationParts] using hp.1, writableAll_iff.1 hp.2⟩
  | _ => exact ⟨List.cons_ne_nil _ _, List.forall_mem_singleton.2 hp⟩

theorem normalAll_ne_nil {ps : List Pattern} (h : (!ps.isEmpty) = true) : normalAll ps ≠ [] := by
  rw [normalAll_eq_map, ne_eq, List.map_eq_nil_iff]
  simpa using h

/-- Parts that are spliced together can be written if each contributes parts that can. -/
theorem unlessSingle_writable {join : List Pattern → Pattern}
    (hjoin : ∀ ps, (join ps).writable = (!ps.isEmpty && writableAll ps))
    {contribution : Pattern → List Pattern} {ps : List Pattern} (hsome : ps ≠ [])
    (h : ∀ p ∈ ps, contribution p ≠ [] ∧ ∀ q ∈ contribution p, q.writable = true) :
    (unlessSingle join (ps.flatMap contribution)).writable = true := by
  have hall : ∀ q ∈ ps.flatMap contribution, q.writable = true := by
    intro q hq
    obtain ⟨p, hp, hq⟩ := List.mem_flatMap.1 hq
    exact (h p hp).2 q hq
  have hnonempty : ps.flatMap contribution ≠ [] := by
    obtain ⟨p, hp⟩ := List.exists_mem_of_ne_nil ps hsome
    obtain ⟨q, hq⟩ := List.exists_mem_of_ne_nil _ (h p hp).1
    exact List.ne_nil_of_mem (List.mem_flatMap.2 ⟨p, hp, hq⟩)
  -- One part is the result itself, several are joined.
  refine unlessSingle_induction (motive := fun q => q.writable = true) (fun p hp => ?_) fun _ => ?_
  · rw [hp] at hall
    exact hall p (List.mem_singleton_self p)
  · rw [hjoin, writableAll_iff.2 hall, List.isEmpty_eq_false_iff.2 hnonempty]
    rfl

mutual

theorem writable_normal : ∀ p : Pattern, p.writable = true → p.normal.writable = true
  | edge _ _ _, h => h
  | seq parts, h => by
    rw [writable, Bool.and_eq_true] at h
    have hall := writable_normalAll parts h.2
    exact unlessSingle_writable (fun _ => rfl) (normalAll_ne_nil h.1) fun p hp =>
      sequenceParts_writable (hall p hp)
  | alt parts, h => by
    rw [writable, Bool.and_eq_true] at h
    have hall := writable_normalAll parts h.2
    exact unlessSingle_writable (fun _ => rfl) (normalAll_ne_nil h.1) fun p hp =>
      alternationParts_writable (hall p hp)
  | star inner, h => writable_normal inner h
  | plus inner, h => writable_normal inner h
  | optional inner, h => writable_normal inner h
  | power inner n, h => by
    rw [writable, Bool.and_eq_true] at h
    rw [normal, writable, writable_normal inner h.1, h.2, Bool.and_self]
  | transpose inner, h => writable_normal inner h

theorem writable_normalAll : ∀ ps : List Pattern, writableAll ps = true →
    ∀ q ∈ normalAll ps, q.writable = true
  | [], _, _, hq => absurd hq List.not_mem_nil
  | p :: ps, h, q, hq => by
    rw [writableAll, Bool.and_eq_true] at h
    rcases List.mem_cons.1 hq with rfl | hq
    · exact writable_normal p h.1
    · exact writable_normalAll ps h.2 q hq

end

/-! ## Reading, writing and reading again -/

/-- What is read is canonical, whatever spaces and parentheses the text has, and writing it leads to
a text that is read as the same pattern and so written in the same way. -/
theorem canonical_of_ofText {text : String} {p : Pattern} (h : ofText text = .ok p) :
    p.Canonical ∧ ofText p.toText = .ok p ∧ (ofText p.toText).map toText = .ok p.toText := by
  obtain ⟨tree, hwritten, rfl⟩ := ofChars_eq_ok_iff.1 h
  have hwritable := writable_normal tree hwritten.writable
  have hnormal := isNormal_normal tree
  -- The text that is written is read as the normal form of a normal pattern.
  have hread : ofText tree.normal.toText = .ok tree.normal := by
    have hwritten := normalized_toText hwritable
    rw [normal_eq_self _ hnormal] at hwritten
    exact ofChars_eq_ok_iff.2 hwritten
  refine ⟨(canonical_iff _).2 ⟨hnormal, hwritable⟩, hread, ?_⟩
  rw [hread]
  rfl

/-- Parentheses around a part and around a single step, a role before a type, zeros before an
exponent, and spaces wherever they may stand. -/
def winding : String :=
  " ( -->\x7b @stop , ^rail.old\x7d ( (<--) -->\x7broad\x7d ) )^007 | ( ( <-> )^T* | <--\x7bhome,@b\x7d )"

def unwound : Pattern :=
  alt [
    power (seq [edge .outgoing [⟨"rail.old", true⟩] ["stop"], edge .incoming [] [],
      edge .outgoing [⟨"road", false⟩] []]) 7,
    star (transpose (edge .any [] [])),
    edge .incoming [⟨"home", false⟩] ["b"]]

theorem canonical_of_ofText_winding :
    ofText winding = .ok unwound ∧ unwound.Canonical ∧ ofText unwound.toText = .ok unwound ∧
      (ofText unwound.toText).map toText = .ok unwound.toText := by
  have hread : (ofText winding).toOption = some unwound := by decide +kernel
  have h : ofText winding = .ok unwound := by
    cases hresult : ofText winding with
    | error _ =>
      rw [hresult] at hread
      cases hread
    | ok p =>
      rw [hresult] at hread
      exact congrArg Except.ok (Option.some.inj hread)
  exact ⟨h, canonical_of_ofText h⟩

end Pattern
end PathQuery
