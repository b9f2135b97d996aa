import PathQuery.Proofs.Pattern.Grammar

/-!
# What is read is derived

For every parser of patterns: the characters that it takes are derived by the rule of the grammar,
and its answer is the normal form of the tree of the derivation.
-/

namespace PathQuery
namespace Pattern

open PathQuery.Parser Grammar

/-! ## Restrictions -/

theorem isNameChar_of_isNameStart {c : Char} (h : isNameStart c = true) : isNameChar c = true := by
  rw [isNameStart, Bool.or_eq_true] at h
  rw [isNameChar, Char.isAlphanum, Bool.or_eq_true, Bool.or_eq_true]
  exact h.imp_left .inl

theorem isTypeNameChar_of_isNameStart {c : Char} (h : isNameStart c = true) :
    isTypeNameChar c = true := by
  rw [isTypeNameChar, isNameChar_of_isNameStart h]
  rfl

theorem reads_name {rest : Char → Bool} (hrest : ∀ {c}, isNameStart c = true → rest c = true) :
    Reads (name rest) fun cs n => IsName rest cs ∧ n = String.ofList cs := by
  intro s n r h
  obtain ⟨first, r₁, hfirst, h⟩ := bind_eq_ok.1 h
  obtain ⟨others, r₂, hothers, h⟩ := bind_eq_ok.1 h
  obtain ⟨rfl, rfl⟩ := pure_eq_ok.1 h
  obtain ⟨hsome, rfl, rfl⟩ := takeWhile1_eq_ok.1 hfirst
  obtain ⟨rfl, rfl⟩ := Prod.mk.inj (Except.ok.inj hothers)
  refine ⟨_, ?_, ?_, rfl⟩
  · rw [List.append_assoc, List.takeWhile_append_dropWhile, List.takeWhile_append_dropWhile]
  · obtain ⟨c, cs, hcs⟩ := List.exists_cons_of_ne_nil hsome
    have hstart : ∀ d ∈ c :: cs, isNameStart d = true := by
      rw [← hcs]
      exact mem_takeWhile
    rw [hcs]
    refine ⟨c, _, rfl, hstart c List.mem_cons_self, fun d hd => ?_⟩
    rcases List.mem_append.1 hd with hd | hd
    · exact hrest (hstart d (List.mem_cons_of_mem c hd))
    · exact mem_takeWhile d hd

theorem reads_restrictionItem : Reads restrictionItem Item := by
  intro s i rest h
  rcases orElse_eq_ok h with h | h
  · obtain ⟨_, r, hmark, hrest⟩ := bind_eq_ok.1 h
    obtain ⟨n, r', hname, hitem⟩ := bind_eq_ok.1 hrest
    obtain rfl := char_eq_ok.1 hmark
    obtain ⟨rfl, rfl⟩ := pure_eq_ok.1 hitem
    obtain ⟨cs, rfl, hcs, rfl⟩ := reads_name isNameChar_of_isNameStart hname
    exact ⟨'@' :: cs, rfl, .role hcs⟩
  rcases orElse_eq_ok h with h | h
  · obtain ⟨_, r, hmark, hrest⟩ := bind_eq_ok.1 h
    obtain ⟨n, r', hname, hitem⟩ := bind_eq_ok.1 hrest
    obtain rfl := char_eq_ok.1 hmark
    obtain ⟨rfl, rfl⟩ := pure_eq_ok.1 hitem
    obtain ⟨cs, rfl, hcs, rfl⟩ := reads_name isTypeNameChar_of_isNameStart hname
    exact ⟨'^' :: cs, rfl, .forbidden hcs⟩
  · obtain ⟨n, r', hname, h⟩ := bind_eq_ok.1 h
    obtain ⟨rfl, rfl⟩ := pure_eq_ok.1 h
    obtain ⟨cs, rfl, hcs, rfl⟩ := reads_name isTypeNameChar_of_isNameStart hname
    exact ⟨cs, rfl, .allowed hcs⟩

theorem Grammar.Items.prepend {w cs : List Char} {is : List RestrictionItem} (hw : Spaces w)
    (h : Items cs is) : Items (w ++ cs) is := by
  cases h with
  | one first => exact .one (.prepend hw first)
  | more first others =>
    rw [← List.append_assoc]
    exact .more (.prepend hw first) others

theorem reads_items : Reads (sepBy1 (lexeme (char ',')) (lexeme restrictionItem)) Items := by
  refine reads_sepBy1 (reads_token ',') (reads_lexeme reads_restrictionItem) .one ?_
  rintro _ _ es i is hitem ⟨hv, rfl, hw⟩ hes
  have := Items.more (hitem.append hv) (.prepend hw hes)
  simpa using this

theorem reads_restriction :
    Reads restriction fun cs is => ∃ w ds, cs = w ++ '\x7b' :: ds ++ ['\x7d'] ∧ Spaces w ∧
      Items ds is := by
  intro s is rest h
  obtain ⟨_, r, hopen, h⟩ := bind_eq_ok.1 h
  obtain ⟨is', r', hitems, h⟩ := bind_eq_ok.1 h
  obtain ⟨_, r'', hclose, h⟩ := bind_eq_ok.1 h
  obtain ⟨rfl, rfl⟩ := pure_eq_ok.1 h
  obtain ⟨_, rfl, ⟨hv, rfl, hw⟩⟩ := reads_token '\x7b' hopen
  obtain ⟨ds, rfl, hds⟩ := reads_items hitems
  obtain rfl := char_eq_ok.1 hclose
  exact ⟨_, by simp, _, _, rfl, hv, hds.prepend hw⟩

/-! ## Operators -/

theorem reads_exponent : Reads exponent fun cs n =>
    cs ≠ [] ∧ (∀ c ∈ cs, c.isDigit = true) ∧ n = decimal cs ∧ decimal cs ≤ maxExponent := by
  intro s n rest h
  rw [exponent] at h
  split at h
  · rename_i digits r hdigits
    obtain ⟨hsome, rfl, rfl⟩ := takeWhile1_eq_ok.1 hdigits
    split at h
    · rename_i hsmall
      obtain ⟨rfl, rfl⟩ := Prod.mk.inj (Except.ok.inj h)
      exact ⟨_, List.takeWhile_append_dropWhile.symm, hsome, mem_takeWhile, rfl, hsmall⟩
    · cases h
  · cases h

theorem reads_postfixOp : Reads postfixOp Operator := by
  have hsign : ∀ {c : Char} {op op' : Pattern → Pattern} {s rest : List Char},
      (do char c; pure op : Parser (Pattern → Pattern)) s = .ok (op', rest) →
        s = c :: rest ∧ op = op' := by
    intro c op op' s rest h
    obtain ⟨_, r, hc, h⟩ := bind_eq_ok.1 h
    obtain ⟨rfl, rfl⟩ := pure_eq_ok.1 h
    exact ⟨char_eq_ok.1 hc, rfl⟩
  intro s op rest h
  rcases orElse_eq_ok h with h | h
  · obtain ⟨rfl, rfl⟩ := hsign h
    exact ⟨_, rfl, .star⟩
  rcases orElse_eq_ok h with h | h
  · obtain ⟨rfl, rfl⟩ := hsign h
    exact ⟨_, rfl, .plus⟩
  rcases orElse_eq_ok h with h | h
  · obtain ⟨rfl, rfl⟩ := hsign h
    exact ⟨_, rfl, .optional⟩
  obtain ⟨_, r, hcaret, h⟩ := bind_eq_ok.1 h
  obtain rfl := char_eq_ok.1 hcaret
  rcases orElse_eq_ok h with h | h
  · obtain ⟨rfl, rfl⟩ := hsign h
    exact ⟨_, rfl, .transpose⟩
  · obtain ⟨n, r', hn, h⟩ := bind_eq_ok.1 h
    obtain ⟨rfl, rfl⟩ := pure_eq_ok.1 h
    obtain ⟨digits, rfl, hsome, hdigits, rfl, hsmall⟩ := reads_exponent hn
    exact ⟨'^' :: digits, rfl, .power hsome hdigits hsmall⟩

/-! ## Edge steps -/

theorem reads_arrow : Reads arrow fun cs direction => cs = direction.arrow.toList := by
  have hliteral : ∀ {cs : List Char} {d d' : Direction} {s rest : List Char},
      (do literal cs; pure d : Parser Direction) s = .ok (d', rest) → s = cs ++ rest ∧ d = d' := by
    intro cs d d' s rest h
    obtain ⟨_, r, hcs, h⟩ := bind_eq_ok.1 h
    obtain ⟨rfl, rfl⟩ := pure_eq_ok.1 h
    rw [literal] at hcs
    split at hcs
    · rename_i hprefix
      obtain ⟨t, rfl⟩ := List.isPrefixOf_iff_prefix.1 hprefix
      obtain ⟨_, rfl⟩ := Prod.mk.inj (Except.ok.inj hcs)
      exact ⟨by rw [List.drop_left], rfl⟩
    · cases hcs
  intro s d rest h
  rcases orElse_eq_ok h with h | h
  · obtain ⟨rfl, rfl⟩ := hliteral h
    exact ⟨_, rfl, by simp [Direction.arrow]⟩
  rcases orElse_eq_ok h with h | h
  · obtain ⟨rfl, rfl⟩ := hliteral h
    exact ⟨_, rfl, by simp [Direction.arrow]⟩
  · obtain ⟨rfl, rfl⟩ := hliteral h
    exact ⟨_, rfl, by simp [Direction.arrow]⟩

/-! ## Patterns -/

/-- The normal form of a tree that is derived. -/
def Normalized (derives : List Char → Pattern → Prop) (cs : List Char) (p : Pattern) : Prop :=
  ∃ tree, derives cs tree ∧ tree.normal = p

theorem reads_edgeStep : Reads edgeStep (Normalized Atom) := by
  intro s p rest h
  obtain ⟨direction, r, harrow, h⟩ := bind_eq_ok.1 h
  obtain ⟨items, r', hitems, h⟩ := bind_eq_ok.1 h
  obtain ⟨rfl, rfl⟩ := pure_eq_ok.1 h
  obtain ⟨_, rfl, rfl⟩ := reads_arrow harrow
  rcases optional_eq_ok hitems with ⟨is, rfl, his⟩ | ⟨rfl, rfl⟩
  · obtain ⟨_, rfl, w, ds, rfl, hw, hds⟩ := reads_restriction his
    exact ⟨_, by simp, _, .restricted direction hw hds, rfl⟩
  · exact ⟨_, rfl, _, .arrow direction, rfl⟩

/-- Operators are applied to the normal form. -/
theorem normal_foldl {ds : List Char} {ops : List (Pattern → Pattern)}
    (h : Repeated Operator ds ops) (p : Pattern) :
    (ops.foldl (fun p op => op p) p).normal = ops.foldl (fun p op => op p) p.normal := by
  induction h generalizing p with
  | nil => rfl
  | cons first _ ih =>
    rw [List.foldl_cons, List.foldl_cons, ih]
    cases first <;> rfl

theorem Grammar.Sequence.prepend {w cs : List Char} {p : Pattern} (hw : Spaces w)
    (h : Sequence cs p) : Sequence (w ++ cs) p := by
  cases h with
  | one hv first hx =>
    rw [← List.append_assoc, ← List.append_assoc]
    exact .one (hw.append hv) first hx
  | more hv first others =>
    rw [← List.append_assoc, ← List.append_assoc]
    exact .more (hw.append hv) first others

theorem Grammar.Alternation.prepend {w cs : List Char} {p : Pattern} (hw : Spaces w)
    (h : Alternation cs p) : Alternation (w ++ cs) p := by
  cases h with
  | one first => exact .one (first.prepend hw)
  | more first hv hx others =>
    rw [← List.append_assoc, ← List.append_assoc, ← List.append_assoc]
    exact .more (first.prepend hw) hv hx others

section Nested

variable {inner : Parser Pattern}

theorem reads_atom (hinner : Reads inner (Normalized Alternation)) :
    Reads (atom inner) (Indented (Normalized Atom)) := by
  intro s p rest h
  rcases orElse_eq_ok h with h | h
  · obtain ⟨_, r, hopen, h⟩ := bind_eq_ok.1 h
    obtain ⟨q, r', hq, h⟩ := bind_eq_ok.1 h
    obtain ⟨_, r'', hclose, h⟩ := bind_eq_ok.1 h
    obtain ⟨rfl, rfl⟩ := pure_eq_ok.1 h
    obtain ⟨_, rfl, ⟨hu, rfl, hv⟩⟩ := reads_token '(' hopen
    obtain ⟨cs, rfl, tree, htree, rfl⟩ := hinner hq
    obtain ⟨_, rfl, ⟨hw, rfl, hx⟩⟩ := reads_token ')' hclose
    exact ⟨_, by simp, .intro hu ⟨tree, .group hv htree hw hx, rfl⟩⟩
  · obtain ⟨cs, rfl, hcs⟩ := reads_edgeStep h
    exact ⟨[] ++ cs, rfl, .intro spaces_nil hcs⟩

theorem reads_postfixed (hinner : Reads inner (Normalized Alternation)) :
    Reads (postfixed inner) (Indented (Normalized Postfixed)) := by
  intro s p rest h
  obtain ⟨q, r, hq, h⟩ := bind_eq_ok.1 h
  obtain ⟨ops, r', hops, h⟩ := bind_eq_ok.1 h
  obtain ⟨rfl, rfl⟩ := pure_eq_ok.1 h
  obtain ⟨_, rfl, ⟨hw, tree, htree, rfl⟩⟩ := reads_atom hinner hq
  obtain ⟨ds, rfl, hds⟩ := reads_many reads_postfixOp hops
  exact ⟨_, by simp, .intro hw ⟨_, .intro htree hds, normal_foldl hds tree⟩⟩

theorem reads_sequence (hinner : Reads inner (Normalized Alternation)) :
    Reads (sequence inner) (Normalized Sequence) := by
  have hparts : Reads (many1 (lexeme (postfixed inner))) fun cs ps =>
      ∃ trees, Sequence cs (seq trees) ∧ trees.map normal = ps := by
    refine reads_many1 (reads_lexeme (reads_postfixed hinner)) ?_ ?_
    · intro cs p hp
      obtain ⟨hv, ⟨tree, htree, rfl⟩, hw⟩ := hp.of_indented
      exact ⟨[tree], .one hv htree hw, rfl⟩
    · rintro cs ds p ps hp ⟨trees, htrees, rfl⟩
      obtain ⟨hv, ⟨tree, htree, rfl⟩, hw⟩ := hp.of_indented
      refine ⟨tree :: trees, ?_, rfl⟩
      have := Sequence.more hv htree (htrees.prepend hw)
      simpa using this
  intro s p rest h
  obtain ⟨ps, r, hps, h⟩ := bind_eq_ok.1 h
  obtain ⟨rfl, rfl⟩ := pure_eq_ok.1 h
  obtain ⟨cs, rfl, trees, htrees, rfl⟩ := hparts hps
  exact ⟨cs, rfl, seq trees, htrees, normal_seq trees⟩

theorem reads_alternation (hinner : Reads inner (Normalized Alternation)) :
    Reads (alternation inner) (Normalized Alternation) := by
  have hparts : Reads (sepBy1 (lexeme (char '|')) (sequence inner)) fun cs ps =>
      ∃ trees, Alternation cs (alt trees) ∧ trees.map normal = ps := by
    refine reads_sepBy1 (reads_token '|') (reads_sequence hinner) ?_ ?_
    · rintro cs p ⟨tree, htree, rfl⟩
      exact ⟨[tree], .one htree, rfl⟩
    · rintro cs _ es p ps ⟨tree, htree, rfl⟩ ⟨hv, rfl, hw⟩ ⟨trees, htrees, rfl⟩
      refine ⟨tree :: trees, ?_, rfl⟩
      have := Alternation.more htree hv hw htrees
      simpa using this
  intro s p rest h
  obtain ⟨ps, r, hps, h⟩ := bind_eq_ok.1 h
  obtain ⟨rfl, rfl⟩ := pure_eq_ok.1 h
  obtain ⟨cs, rfl, trees, htrees, rfl⟩ := hparts hps
  exact ⟨cs, rfl, alt trees, htrees, normal_alt trees⟩

end Nested

theorem reads_path (depth : Nat) : Reads (path depth) (Normalized Alternation) := by
  induction depth with
  | zero =>
    intro s p rest h
    cases h
  | succ depth ih => exact reads_alternation ih

end Pattern
end PathQuery
