import PathQuery.Proofs.Pattern.Accepted

/-!
# Written patterns are read back

* `Pattern.writable`: the names are names, nothing is empty and no exponent is too large;
* `normalized_render`: the written form of such a pattern is derived, by the rule that its outermost
  operation asks for;
* `ofText_toText`: it is read as the normal form of the pattern.
-/

namespace PathQuery
namespace Pattern

open PathQuery.Parser Grammar

/-- One character that may begin a name, and any number of a class. -/
def isName (rest : Char → Bool) (n : String) : Bool :=
  match n.toList with
  | [] => false
  | c :: cs => isNameStart c && cs.all rest

mutual

def writable : Pattern → Bool
  | edge _ types roles =>
    types.all (fun t => isName isTypeNameChar t.name) && roles.all (isName isNameChar)
  | seq parts => !parts.isEmpty && writableAll parts
  | alt parts => !parts.isEmpty && writableAll parts
  | star inner => inner.writable
  | plus inner => inner.writable
  | optional inner => inner.writable
  | power inner n => inner.writable && n ≤ maxExponent
  | transpose inner => inner.writable

def writableAll : List Pattern → Bool
  | [] => true
  | p :: ps => p.writable && writableAll ps

end

/-! ## Edge steps -/

theorem isName_iff {rest : Char → Bool} {n : String} :
    isName rest n = true ↔ IsName rest n.toList := by
  rw [isName, IsName]
  cases n.toList with
  | nil => simp
  | cons c cs =>
    rw [Bool.and_eq_true, List.all_eq_true]
    constructor
    · rintro ⟨hc, hcs⟩
      exact ⟨c, cs, rfl, hc, hcs⟩
    · rintro ⟨_, _, heq, hc, hcs⟩
      cases heq
      exact ⟨hc, hcs⟩

theorem item_type {t : TypeTerm} (h : isName isTypeNameChar t.name = true) :
    Item t.render (.type t) := by
  obtain ⟨n, forbidden⟩ := t
  have hitem : Item (if forbidden then '^' :: n.toList else n.toList)
      (.type ⟨String.ofList n.toList, forbidden⟩) := by
    cases forbidden with
    | false => exact .allowed (isName_iff.1 h)
    | true => exact .forbidden (isName_iff.1 h)
  rwa [String.ofList_toList] at hitem

theorem item_role {n : String} (h : isName isNameChar n = true) :
    Item ('@' :: n.toList) (.role n) := by
  have hitem := Item.role (isName_iff.1 h)
  rwa [String.ofList_toList] at hitem

def RestrictionItem.render : RestrictionItem → List Char
  | .type term => term.render
  | .role name => '@' :: name.toList

theorem spaces_single : Spaces [' '] := by
  intro c hc
  obtain rfl := List.mem_singleton.1 hc
  decide

theorem items_intercalate {is : List RestrictionItem} (hsome : is ≠ [])
    (h : ∀ i ∈ is, Item i.render i) :
    Items ([',', ' '].intercalate (is.map RestrictionItem.render)) is := by
  match is, hsome with
  | [i], _ =>
    rw [List.map_singleton, List.intercalate_singleton]
    have hi := Spaced.intro spaces_nil (h i List.mem_cons_self) spaces_nil
    rw [List.nil_append, List.append_nil] at hi
    exact .one hi
  | i :: j :: is, _ =>
    have hi := Spaced.intro spaces_nil (h i List.mem_cons_self) spaces_nil
    have his := items_intercalate (List.cons_ne_nil j is) fun k hk =>
      h k (List.mem_cons_of_mem i hk)
    rw [List.nil_append, List.append_nil] at hi
    rw [List.map_cons, List.map_cons, List.intercalate_cons_cons, ← List.map_cons]
    have := Items.more hi (his.prepend spaces_single)
    simpa using this

theorem renderRestriction_eq {types : List TypeTerm} {roles : List String}
    {is : List RestrictionItem} (his : types.map .type ++ roles.map .role = is) (hsome : is ≠ []) :
    renderRestriction types roles =
      '\x7b' :: [',', ' '].intercalate (is.map RestrictionItem.render) ++ ['\x7d'] := by
  have hwritten : types.map TypeTerm.render ++ roles.map (fun r => '@' :: r.toList) =
      is.map RestrictionItem.render := by
    rw [← his, List.map_append, List.map_map, List.map_map]
    rfl
  rw [renderRestriction, hwritten]
  split
  · rename_i hnil
    exact absurd (List.map_eq_nil_iff.1 hnil) hsome
  · rfl

theorem normalized_edge (direction : Direction) {types : List TypeTerm} {roles : List String}
    (h : (edge direction types roles).writable = true) :
    Normalized Atom (edge direction types roles).render (edge direction types roles) := by
  rw [writable, Bool.and_eq_true, List.all_eq_true, List.all_eq_true] at h
  have htypes : typesOf (types.map .type ++ roles.map .role) = types := by
    have hrest : typesOf (roles.map .role) = [] := by simp [typesOf]
    have hown : typesOf (types.map .type) = types := List.filterMap_map.trans List.filterMap_some
    rw [typesOf, List.filterMap_append, ← typesOf, ← typesOf, hown, hrest, List.append_nil]
  have hroles : rolesOf (types.map .type ++ roles.map .role) = roles := by
    have hrest : rolesOf (types.map .type) = [] := by simp [rolesOf]
    have hown : rolesOf (roles.map .role) = roles := List.filterMap_map.trans List.filterMap_some
    rw [rolesOf, List.filterMap_append, ← rolesOf, ← rolesOf, hown, hrest, List.nil_append]
  have hitems : ∀ i ∈ types.map RestrictionItem.type ++ roles.map .role, Item i.render i := by
    intro i hi
    rcases List.mem_append.1 hi with hi | hi
    · obtain ⟨t, ht, rfl⟩ := List.mem_map.1 hi
      exact item_type (h.1 t ht)
    · obtain ⟨n, hn, rfl⟩ := List.mem_map.1 hi
      exact item_role (h.2 n hn)
  by_cases hsome : types.map RestrictionItem.type ++ roles.map RestrictionItem.role = []
  · -- A restriction without items is not written at all.
    obtain ⟨hnoTypes, hnoRoles⟩ := List.append_eq_nil_iff.1 hsome
    obtain rfl := List.map_eq_nil_iff.1 hnoTypes
    obtain rfl := List.map_eq_nil_iff.1 hnoRoles
    refine ⟨edge direction [] [], ?_, rfl⟩
    have hnone : renderRestriction [] [] = [] := rfl
    rw [render, hnone, List.append_nil]
    exact .arrow direction
  · have hatom := Atom.restricted direction spaces_nil (items_intercalate hsome hitems)
    rw [htypes, hroles] at hatom
    refine ⟨edge direction types roles, ?_, rfl⟩
    rw [render, renderRestriction_eq rfl hsome]
    simpa using hatom

/-! ## From one rule to the next -/

section Rules

variable {cs ds : List Char} {p : Pattern}

theorem Normalized.postfixed (h : Normalized Atom cs p) : Normalized Postfixed cs p := by
  obtain ⟨tree, htree, rfl⟩ := h
  have := Postfixed.intro htree .nil
  rw [List.append_nil] at this
  exact ⟨tree, this, rfl⟩

theorem Normalized.operator {op : Pattern → Pattern} (h : Normalized Postfixed cs p)
    (hop : Operator ds op) : Normalized Postfixed (cs ++ ds) (op p) := by
  -- The operator is the last one of those that were there already, not one around a group.
  obtain ⟨_, ⟨operand, operators⟩, rfl⟩ := h
  have := Postfixed.intro operand (operators.snoc hop)
  rw [List.append_assoc]
  refine ⟨_, this, ?_⟩
  rw [List.foldl_append, List.foldl_cons, List.foldl_nil]
  cases hop <;> rfl

theorem Normalized.sequence (h : Normalized Postfixed cs p) : Normalized Sequence cs p := by
  obtain ⟨tree, htree, rfl⟩ := h
  have := Sequence.one spaces_nil htree spaces_nil
  rw [List.nil_append, List.append_nil] at this
  exact ⟨_, this, normal_seq_singleton tree⟩

theorem Normalized.alternation (h : Normalized Sequence cs p) : Normalized Alternation cs p := by
  obtain ⟨tree, htree, rfl⟩ := h
  exact ⟨_, .one htree, normal_alt_singleton tree⟩

theorem Normalized.group (h : Normalized Alternation cs p) :
    Normalized Postfixed ('(' :: cs ++ [')']) p := by
  obtain ⟨tree, htree, rfl⟩ := h
  have := Atom.group spaces_nil htree spaces_nil spaces_nil
  refine Normalized.postfixed ⟨tree, ?_, rfl⟩
  simpa using this

end Rules

/-! ## The written form -/

/-- The rule by which the written form is derived without parentheses around it. -/
def rule : Pattern → List Char → Pattern → Prop
  | alt _ => Alternation
  | seq _ => Sequence
  | _ => Postfixed

theorem normalized_alternation {p q : Pattern} {cs : List Char} (h : Normalized p.rule cs q) :
    Normalized Alternation cs q := by
  cases p with
  | alt parts => exact h
  | seq parts => exact h.alternation
  | _ => exact h.sequence.alternation

theorem normalized_sequence {p q : Pattern} {cs : List Char} (h : Normalized p.rule cs q) :
    Normalized Sequence (parenthesize (p.precedence < 1) cs) q := by
  cases p with
  | alt parts => exact h.group.sequence
  | seq parts => exact h
  | _ => exact h.sequence

theorem normalized_postfixed {p q : Pattern} {cs : List Char} (h : Normalized p.rule cs q) :
    Normalized Postfixed (parenthesize (p.precedence < 2) cs) q := by
  cases p with
  | alt parts => exact h.group
  | seq parts => exact h.alternation.group
  | _ => exact h

theorem operator_power {n : Nat} (hn : n ≤ maxExponent) :
    Operator ('^' :: (toString n).toList) (power · n) := by
  have hdigits : (toString n).toList = Nat.toDigits 10 n := Nat.toList_repr
  have hvalue : decimal (Nat.toDigits 10 n) = n :=
    Nat.ofDigitChars_toDigits (by decide) (by decide)
  have hne : Nat.toDigits 10 n ≠ [] := Nat.toDigits_ne_nil
  have := Operator.power hne
    (fun c hc => Nat.isDigit_of_mem_toDigits (by decide) (by decide) hc) (hvalue.symm ▸ hn)
  rwa [hvalue, ← hdigits] at this

mutual

-- The derivation follows the pattern: each part is derived by the rule of its own operation, and
-- from there by the rule of the place in which it stands, in parentheses where this asks for them.
theorem normalized_render : ∀ p : Pattern, p.writable = true →
    Normalized p.rule p.render p.normal
  | edge direction _ _, h => (normalized_edge direction h).postfixed
  | seq parts, h => by
    rw [writable, Bool.and_eq_true] at h
    obtain ⟨trees, htrees, hnormal⟩ := sequence_renderAll parts (by simpa using h.1) h.2
    exact ⟨_, htrees, by rw [normal_seq, normal_seq, hnormal]⟩
  | alt parts, h => by
    rw [writable, Bool.and_eq_true] at h
    obtain ⟨trees, htrees, hnormal⟩ := alternation_renderAll parts (by simpa using h.1) h.2
    exact ⟨_, htrees, by rw [normal_alt, normal_alt, hnormal]⟩
  | star inner, h => (normalized_postfixed (normalized_render inner h)).operator .star
  | plus inner, h => (normalized_postfixed (normalized_render inner h)).operator .plus
  | optional inner, h => (normalized_postfixed (normalized_render inner h)).operator .optional
  | power inner n, h => by
    rw [writable, Bool.and_eq_true, decide_eq_true_eq] at h
    exact (normalized_postfixed (normalized_render inner h.1)).operator (operator_power h.2)
  | transpose inner, h => (normalized_postfixed (normalized_render inner h)).operator .transpose

theorem sequence_renderAll : ∀ ps : List Pattern, ps ≠ [] → writableAll ps = true →
    ∃ trees, Sequence (renderAll [' '] 2 ps) (seq trees) ∧ trees.map normal = ps.map normal
  | [p], _, h => by
    rw [writableAll, Bool.and_eq_true] at h
    obtain ⟨tree, htree, hnormal⟩ := normalized_postfixed (normalized_render p h.1)
    have hone := Sequence.one spaces_nil htree spaces_nil
    rw [List.nil_append, List.append_nil] at hone
    exact ⟨[tree], hone, congrArg (fun q => [q]) hnormal⟩
  | p :: q :: ps, _, h => by
    rw [writableAll, Bool.and_eq_true] at h
    obtain ⟨tree, htree, hnormal⟩ := normalized_postfixed (normalized_render p h.1)
    obtain ⟨trees, htrees, hothers⟩ := sequence_renderAll (q :: ps) (List.cons_ne_nil q ps) h.2
    have hmore := Sequence.more spaces_nil htree (htrees.prepend spaces_single)
    rw [List.nil_append, ← List.append_assoc] at hmore
    exact ⟨tree :: trees, hmore, List.cons_eq_cons.2 ⟨hnormal, hothers⟩⟩

theorem alternation_renderAll : ∀ ps : List Pattern, ps ≠ [] → writableAll ps = true →
    ∃ trees, Alternation (renderAll [' ', '|', ' '] 1 ps) (alt trees) ∧
      trees.map normal = ps.map normal
  | [p], _, h => by
    rw [writableAll, Bool.and_eq_true] at h
    obtain ⟨tree, htree, hnormal⟩ := normalized_sequence (normalized_render p h.1)
    exact ⟨[tree], .one htree, congrArg (fun q => [q]) hnormal⟩
  | p :: q :: ps, _, h => by
    rw [writableAll, Bool.and_eq_true] at h
    obtain ⟨tree, htree, hnormal⟩ := normalized_sequence (normalized_render p h.1)
    obtain ⟨trees, htrees, hothers⟩ :=
      alternation_renderAll (q :: ps) (List.cons_ne_nil q ps) h.2
    have hmore := Alternation.more htree spaces_single spaces_single htrees
    have happend : ∀ cs ds : List Char, cs ++ [' '] ++ '|' :: [' '] ++ ds =
        cs ++ [' ', '|', ' '] ++ ds := by
      intro cs ds
      simp
    rw [happend] at hmore
    exact ⟨tree :: trees, hmore, List.cons_eq_cons.2 ⟨hnormal, hothers⟩⟩

end

theorem normalized_toText {p : Pattern} (h : p.writable = true) :
    Normalized Written p.toText.toList p.normal := by
  obtain ⟨tree, htree, hnormal⟩ := normalized_alternation (normalized_render p h)
  have hwritten := Spaced.intro spaces_nil htree spaces_nil
  rw [List.nil_append, List.append_nil] at hwritten
  rw [toText, String.toList_ofList]
  exact ⟨tree, hwritten, hnormal⟩

/-- The written form of a pattern is read as its normal form, so patterns in normal form are read
back as they are. -/
theorem ofText_toText (p : Pattern) (h : p.writable = true) :
    ofText p.toText = .ok p.normal ∧ (p.IsNormal → ofText p.toText = .ok p) := by
  have hread : ofText p.toText = .ok p.normal := ofChars_eq_ok_iff.2 (normalized_toText h)
  refine ⟨hread, fun hp => ?_⟩
  rw [hread, normal_eq_self p hp]

/-- A sequence in a sequence, an alternation of one part, and operators on each other. -/
def wayHome : Pattern :=
  seq [alt [edge .outgoing [⟨"road", false⟩, ⟨"rail.old", true⟩] ["stop"]],
    power
      (transpose (seq [edge .any [] [], star (alt [edge .incoming [] [], edge .any [] []])])) 64,
    seq [edge .any [] [], plus (edge .incoming [] ["home"])]]

theorem ofText_toText_wayHome :
    wayHome.writable = true ∧ ofText wayHome.toText = .ok wayHome.normal ∧
      wayHome.normal.writable = true ∧ ofText wayHome.normal.toText = .ok wayHome.normal :=
  ⟨by decide +kernel, (ofText_toText wayHome (by decide +kernel)).1, by decide +kernel,
    (ofText_toText wayHome.normal (by decide +kernel)).2 (isNormal_normal wayHome)⟩

end Pattern
end PathQuery
