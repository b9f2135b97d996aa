import PathQuery.Proofs.Pattern.Derived

/-!
# What is derived is accepted

Parsers take as much as they can and give nothing back.  That is no loss: after each part only
characters can follow with which the part cannot go on.

* `followAlternation`, `followSequence`, `followPostfixed`, `followAtom`: the characters that can
  follow, apart from spaces;
* `Grammar.Alternation.accepted`: a text that is derived is read to its end, with the normal form
  of the tree of its derivation;
* `ofText_eq_ok_iff`: the texts that are read are those that are derived.
-/

namespace PathQuery
namespace Pattern

open PathQuery.Parser Grammar

def followAlternation : List Char :=
  [')']

def followSequence : List Char :=
  '|' :: followAlternation

def followPostfixed : List Char :=
  ['(', '-', '<'] ++ followSequence

def followAtom : List Char :=
  ['*', '+', '?', '^'] ++ followPostfixed

/-! ## Restrictions -/

theorem name_apply {rest : Char → Bool} (hstart : ∀ {c}, isNameStart c = true → rest c = true)
    {cs s : List Char} (hcs : IsName rest cs) (hs : ∀ c ∈ s.head?, rest c = false) :
    name rest (cs ++ s) = .ok (String.ofList cs, s) := by
  obtain ⟨c, ds, rfl, hc, hds⟩ := hcs
  -- What the first class takes off and what the second one takes then is what the second one
  -- takes at once.
  have hall : ∀ d ∈ c :: ds, rest d = true := List.forall_mem_cons.2 ⟨hstart hc, hds⟩
  have hsplit := List.takeWhile_append_dropWhile (p := isNameStart) (l := c :: ds ++ s)
  have hfirst : takeWhile1 isNameStart (c :: ds ++ s) =
      .ok ((c :: ds ++ s).takeWhile isNameStart, (c :: ds ++ s).dropWhile isNameStart) := by
    refine takeWhile1_eq_ok.2 ⟨?_, rfl, rfl⟩
    rw [List.cons_append, List.takeWhile_cons_of_pos hc]
    exact List.cons_ne_nil _ _
  have htake := takeWhile_append hall hs
  have hdrop := dropWhile_append hall hs
  rw [← hsplit, List.takeWhile_append_of_pos fun d hd => hstart (mem_takeWhile d hd)] at htake
  rw [← hsplit, List.dropWhile_append_of_pos fun d hd => hstart (mem_takeWhile d hd)] at hdrop
  refine (bind_apply hfirst _).trans ?_
  refine (bind_apply (r := s) (a := ((c :: ds ++ s).dropWhile isNameStart).takeWhile rest) ?_
    _).trans ?_
  · rw [takeWhile, hdrop]
  · rw [htake]
    rfl

theorem restrictionItem_apply {cs s : List Char} {i : RestrictionItem} (h : Item cs i)
    (hs : Before (spaceChars ++ [',', '\x7d']) s) : restrictionItem (cs ++ s) = .ok (i, s) := by
  cases h with
  | @role cs hname =>
    have hread := name_apply isNameChar_of_isNameStart hname (hs.head?_eq_false (by decide))
    refine orElse_left ?_ _
    exact (bind_apply (char_apply '@' (cs ++ s)) _).trans (bind_apply hread _)
  | @forbidden cs hname =>
    have hread := name_apply isTypeNameChar_of_isNameStart hname (hs.head?_eq_false (by decide))
    refine (orElse_right ((char_cons_fails (by decide) (cs ++ s)).bind _) _).trans ?_
    refine orElse_left ?_ _
    exact (bind_apply (char_apply '^' (cs ++ s)) _).trans (bind_apply hread _)
  | allowed hname =>
    have hread := name_apply isTypeNameChar_of_isNameStart hname (hs.head?_eq_false (by decide))
    obtain ⟨c, ds, rfl, hc, _⟩ := hname
    -- A name does not begin with one of the marks.
    have hmark : ∀ d, isNameStart d = false → Fails (char d) (c :: (ds ++ s)) := by
      intro d hd
      refine char_cons_fails ?_ _
      rintro rfl
      rw [hc] at hd
      cases hd
    refine (orElse_right ((hmark '@' (by decide)).bind _) _).trans ?_
    refine (orElse_right ((hmark '^' (by decide)).bind _) _).trans ?_
    exact bind_apply hread _

theorem isSpace_of_isNameStart {c : Char} (h : isNameStart c = true) : Text.isSpace c = false := by
  rw [← Bool.not_eq_true, ← mem_spaceChars]
  intro hc
  have hnone : spaceChars.all (!isNameStart ·) = true := by decide
  simpa [h] using List.all_eq_true.1 hnone c hc

theorem item_head {cs : List Char} {i : RestrictionItem} (h : Item cs i) (s : List Char) :
    ∀ c ∈ (cs ++ s).head?, Text.isSpace c = false := by
  intro c hc
  cases h with
  | role _ =>
    obtain rfl := Option.some.inj hc
    decide
  | forbidden _ =>
    obtain rfl := Option.some.inj hc
    decide
  | allowed hname =>
    obtain ⟨d, ds, rfl, hd, _⟩ := hname
    obtain rfl := Option.some.inj hc
    exact isSpace_of_isNameStart hd

theorem lexeme_restrictionItem_apply {cs s : List Char} {i : RestrictionItem}
    (h : Spaced Item cs i) (hs : Before [',', '\x7d'] s) :
    lexeme restrictionItem (cs ++ s) = .ok (i, s) := by
  obtain ⟨hv, h, hw⟩ := h
  rw [List.append_assoc, List.append_assoc]
  refine lexeme_eq_ok hv (item_head h _) (restrictionItem_apply h (hw.before hs)) hw ?_
  exact hs.head?_eq_false (by decide)

theorem items_apply {cs s : List Char} {is : List RestrictionItem} (h : Items cs is)
    (hs : Before ['\x7d'] s) :
    sepBy1 (lexeme (char ',')) (lexeme restrictionItem) (cs ++ s) = .ok (is, s) := by
  induction h with
  | one first =>
    refine sepBy1_singleton (lexeme_restrictionItem_apply first (hs.mono (by simp))) ?_
    exact lexeme_fails spaces_nil (hs.head?_eq_false (by decide)) (char_fails hs (by decide))
  | more first _ ih =>
    rw [List.append_assoc]
    refine sepBy1_cons (by decide) (skipsSpaces_lexeme _)
      (reads_lexeme reads_restrictionItem).length_le ?_ ih
    exact lexeme_restrictionItem_apply first (before_cons (by decide) _)

theorem restriction_apply {w cs s : List Char} {is : List RestrictionItem} (hw : Spaces w)
    (h : Items cs is) : restriction (w ++ '\x7b' :: cs ++ '\x7d' :: s) = .ok (is, s) := by
  have hitems := items_apply h (before_cons (List.mem_singleton_self '\x7d') s)
  rw [← ((skipsSpaces_lexeme restrictionItem).sepBy1 _).dropWhile] at hitems
  rw [List.append_assoc]
  refine (bind_apply ((skipsSpaces_lexeme _ _ hw).trans (lexeme_char (by decide) _)) _).trans ?_
  exact (bind_apply hitems _).trans (bind_apply (char_apply _ s) _)

theorem restriction_fails {w rest : List Char} (hw : Spaces w) (hrest : Before followAtom rest) :
    Fails restriction (w ++ rest) :=
  (lexeme_fails hw (hrest.head?_eq_false (by decide)) (char_fails hrest (by decide))).bind _

/-! ## Operators -/

theorem exponent_apply {digits s : List Char} (hsome : digits ≠ [])
    (hdigits : ∀ c ∈ digits, c.isDigit = true) (hsmall : decimal digits ≤ maxExponent)
    (hs : ∀ c ∈ s.head?, c.isDigit = false) :
    exponent (digits ++ s) = .ok (decimal digits, s) := by
  have htake : takeWhile1 Char.isDigit (digits ++ s) = .ok (digits, s) :=
    takeWhile1_eq_ok.2 ⟨hsome, takeWhile_append hdigits hs, dropWhile_append hdigits hs⟩
  rw [exponent, htake]
  exact if_pos hsmall

theorem postfixOp_apply {cs s : List Char} {op : Pattern → Pattern} (h : Operator cs op)
    (hs : ∀ c ∈ s.head?, c.isDigit = false) : postfixOp (cs ++ s) = .ok (op, s) := by
  cases h with
  | star => rfl
  | plus => rfl
  | optional => rfl
  | transpose => rfl
  | @power digits hsome hdigits hsmall =>
    obtain ⟨c, ds, rfl⟩ := List.exists_cons_of_ne_nil hsome
    have hc : c ≠ 'T' := by
      rintro rfl
      exact absurd (hdigits 'T' List.mem_cons_self) (by decide)
    -- `^T` is tried before `^` with an exponent, and a digit is no `T`.
    have hexponent := exponent_apply hsome hdigits hsmall hs
    refine (orElse_right ((char_cons_fails (by decide) _).bind _) _).trans ?_
    refine (orElse_right ((char_cons_fails (by decide) _).bind _) _).trans ?_
    refine (orElse_right ((char_cons_fails (by decide) _).bind _) _).trans ?_
    refine (bind_apply (char_apply '^' _) _).trans ?_
    refine (orElse_right ((char_cons_fails hc _).bind _) _).trans ?_
    exact bind_apply hexponent _

theorem postfixOp_fails {s : List Char} (h : Before (spaceChars ++ followPostfixed) s) :
    Fails postfixOp s := by
  rw [Fails, postfixOp, orElse_right ((char_fails h (by decide)).bind _),
    orElse_right ((char_fails h (by decide)).bind _),
    orElse_right ((char_fails h (by decide)).bind _)]
  exact (char_fails h (by decide)).bind _

theorem operator_head {cs : List Char} {op : Pattern → Pattern} (h : Operator cs op)
    (s : List Char) : Before ['*', '+', '?', '^'] (cs ++ s) := by
  cases h <;> exact before_cons (by decide) _

theorem operators_head {cs s : List Char} {ops : List (Pattern → Pattern)}
    (h : Repeated Operator cs ops) (hs : Before (spaceChars ++ followPostfixed) s) :
    Before (spaceChars ++ followAtom) (cs ++ s) := by
  cases h with
  | nil => exact hs.mono (by decide)
  | cons first _ =>
    rw [List.append_assoc]
    exact (operator_head first _).mono (by decide)

theorem operators_apply {cs s : List Char} {ops : List (Pattern → Pattern)}
    (h : Repeated Operator cs ops) (hs : Before (spaceChars ++ followPostfixed) s) :
    many postfixOp (cs ++ s) = .ok (ops, s) := by
  refine congrArg Except.ok ?_
  induction h with
  | nil => exact rounds_nil (postfixOp_fails hs)
  | @cons cs ds op ops first others ih =>
    have hop : postfixOp (cs ++ (ds ++ s)) = .ok (op, ds ++ s) :=
      postfixOp_apply first ((operators_head others hs).head?_eq_false (by decide))
    have hpos : 0 < cs.length := by cases first <;> simp
    have hlt : (ds ++ s).length < (cs ++ (ds ++ s)).length := by
      simp only [List.length_append]
      omega
    rw [List.append_assoc, rounds_cons hop hlt, ih]

/-! ## Edge steps -/

theorem arrow_apply (direction : Direction) (s : List Char) :
    arrow (direction.arrow.toList ++ s) = .ok (direction, s) := by
  cases direction <;> simp [Direction.arrow] <;> rfl

theorem edgeStep_arrow (direction : Direction) {w rest : List Char} (hw : Spaces w)
    (hrest : Before followAtom rest) :
    edgeStep (direction.arrow.toList ++ (w ++ rest)) = .ok (edge direction [] [], w ++ rest) :=
  (bind_apply (arrow_apply direction _) _).trans
    (bind_apply (optional_none (restriction_fails hw hrest)) _)

theorem edgeStep_restricted (direction : Direction) {w cs s : List Char}
    {is : List RestrictionItem} (hw : Spaces w) (h : Items cs is) :
    edgeStep (direction.arrow.toList ++ (w ++ '\x7b' :: cs ++ '\x7d' :: s)) =
      .ok (edge direction (typesOf is) (rolesOf is), s) :=
  (bind_apply (arrow_apply direction _) _).trans
    (bind_apply (optional_some (restriction_apply hw h)) _)

theorem arrow_head (direction : Direction) (s : List Char) :
    Before ['-', '<'] (direction.arrow.toList ++ s) := by
  cases direction <;> simp [Direction.arrow, Before]

/-! ## Patterns -/

/-- The characters that an atom can begin with. -/
def firstAtom : List Char :=
  ['(', '-', '<']

theorem atom_head {cs : List Char} {tree : Pattern} (h : Atom cs tree) (s : List Char) :
    cs ≠ [] ∧ Before firstAtom (cs ++ s) := by
  cases h with
  | arrow direction =>
    refine ⟨?_, (arrow_head direction s).mono (by decide)⟩
    cases direction <;> simp [Direction.arrow]
  | restricted direction _ _ =>
    refine ⟨by simp, ?_⟩
    rw [List.append_assoc, List.append_assoc, List.append_assoc]
    exact (arrow_head direction _).mono (by decide)
  | group _ _ _ _ => exact ⟨by simp, before_cons (by decide) _⟩

theorem postfixed_head {cs : List Char} {tree : Pattern} (h : Postfixed cs tree) (s : List Char) :
    cs ≠ [] ∧ Before firstAtom (cs ++ s) := by
  obtain ⟨operand, _⟩ := h
  rw [List.append_assoc]
  exact ⟨by simp [(atom_head operand s).1], (atom_head operand _).2⟩

theorem sequence_head {cs : List Char} {tree : Pattern} (h : Sequence cs tree) :
    ∃ w ds, cs = w ++ ds ∧ Spaces w ∧ ds ≠ [] ∧ ∀ s, Before firstAtom (ds ++ s) := by
  cases h with
  | @one v w cs _ hv first _ =>
    refine ⟨v, cs ++ w, List.append_assoc .., hv, ?_, fun s => ?_⟩
    · simp [(postfixed_head first []).1]
    · rw [List.append_assoc]
      exact (postfixed_head first _).2
  | @more v cs ds _ _ hv first _ =>
    refine ⟨v, cs ++ ds, List.append_assoc .., hv, ?_, fun s => ?_⟩
    · simp [(postfixed_head first []).1]
    · rw [List.append_assoc]
      exact (postfixed_head first _).2

section Nested

variable {inner : Parser Pattern}

theorem atom_of_edgeStep {s : List Char} {r : Pattern × List Char} (hs : Before ['-', '<'] s)
    (h : edgeStep s = .ok r) : atom inner s = .ok r := by
  refine (orElse_right (Fails.bind ?_ _) _).trans h
  exact lexeme_fails spaces_nil (hs.head?_eq_false (by decide)) (char_fails hs (by decide))

/-- A closing parenthesis takes the spaces behind it along. -/
theorem atom_group {cs x rest : List Char} {p : Pattern} (hskips : SkipsSpaces inner)
    (hinner : inner cs = .ok (p, ')' :: (x ++ rest))) (hx : Spaces x)
    (hrest : Before followAtom rest) : atom inner ('(' :: cs) = .ok (p, rest) := by
  refine orElse_left ?_ _
  refine (bind_apply (lexeme_char (by decide) cs) _).trans ?_
  refine (bind_apply ((hskips.dropWhile cs).trans hinner) _).trans ?_
  refine (bind_apply (lexeme_char (by decide) _) _).trans ?_
  rw [dropWhile_append hx (hrest.head?_eq_false (by decide))]
  rfl

theorem postfixed_apply {cs ds s : List Char} {p : Pattern} {ops : List (Pattern → Pattern)}
    (hatom : atom inner cs = .ok (p, ds ++ s)) (hops : Repeated Operator ds ops)
    (hs : Before (spaceChars ++ followPostfixed) s) :
    postfixed inner cs = .ok (ops.foldl (fun p op => op p) p, s) :=
  (bind_apply hatom _).trans (bind_apply (operators_apply hops hs) _)

theorem atom_fails {s : List Char} (h : Before followSequence s) : Fails (atom inner) s := by
  have hopen : Fails (lexeme (char '(')) s :=
    lexeme_fails spaces_nil (h.head?_eq_false (by decide)) (char_fails h (by decide))
  rw [Fails, atom, orElse_right (hopen.bind _)]
  refine Fails.bind ?_ _
  cases s with
  | nil => exact ⟨_, rfl⟩
  | cons c s =>
    have hc := h c rfl
    simp only [followSequence, followAlternation, List.mem_cons, List.not_mem_nil, or_false] at hc
    rcases hc with rfl | rfl <;> exact ⟨_, rfl⟩

theorem consumes_postfixed (hinner : Reads inner (Normalized Alternation)) :
    Consumes (lexeme (postfixed inner)) := by
  intro s p rest h
  obtain ⟨cs, rfl, hcs⟩ := reads_lexeme (reads_postfixed hinner) h
  obtain ⟨_, ⟨tree, htree, _⟩, _⟩ := hcs.of_indented
  have := List.length_pos_iff.2 (postfixed_head htree []).1
  simp only [List.length_append]
  omega

theorem skipsSpaces_sequence : SkipsSpaces (sequence inner) :=
  (skipsSpaces_lexeme (postfixed inner)).many1.bind _

theorem skipsSpaces_alternation : SkipsSpaces (alternation inner) :=
  (skipsSpaces_sequence.sepBy1 _).bind _

theorem sequence_apply {s rest : List Char} {trees : List Pattern}
    (h : many1 (lexeme (postfixed inner)) s = .ok (trees.map normal, rest)) :
    sequence inner s = .ok ((seq trees).normal, rest) := by
  rw [normal_seq]
  exact bind_apply h _

theorem alternation_apply {s rest : List Char} {trees : List Pattern}
    (h : sepBy1 (lexeme (char '|')) (sequence inner) s = .ok (trees.map normal, rest)) :
    alternation inner s = .ok ((alt trees).normal, rest) := by
  rw [normal_alt]
  exact bind_apply h _

end Nested

/-! ## The whole grammar -/

mutual

/-- Spaces behind the atom may be taken along. -/
theorem Grammar.Atom.accepted : ∀ {cs : List Char} {tree : Pattern}, Atom cs tree →
    ∀ {n : Nat} {w rest : List Char}, cs.length ≤ n → Spaces w → Before followAtom rest →
      ∃ v, v <:+ w ∧ atom (path n) (cs ++ (w ++ rest)) = .ok (tree.normal, v ++ rest)
  | _, _, .arrow direction, _, w, _, _, hw, hrest =>
    ⟨w, List.suffix_rfl, atom_of_edgeStep (arrow_head direction _)
      (edgeStep_arrow direction hw hrest)⟩
  | _, _, .restricted direction hv items, _, w, rest, _, _, _ => by
    refine ⟨w, List.suffix_rfl, ?_⟩
    have hread := edgeStep_restricted direction (s := w ++ rest) hv items
    simp only [List.append_assoc, List.cons_append, List.nil_append] at hread ⊢
    exact atom_of_edgeStep (arrow_head direction _) hread
  | _, _, .group hv inner hx hy, n + 1, w, rest, hlength, hw, hrest => by
    obtain ⟨trees, rfl, haccepted⟩ := Grammar.Alternation.accepted inner
    -- The inside of a group is shorter than the group, so one level less is enough for it.
    refine ⟨[], List.nil_suffix, ?_⟩
    simp only [List.append_assoc, List.cons_append, List.length_cons, List.length_append]
      at hlength ⊢
    refine atom_group skipsSpaces_alternation ?_ (hy.append hw) hrest
    refine (skipsSpaces_alternation _ hv).trans (alternation_apply ?_)
    rw [List.append_assoc]
    exact haccepted (by omega) hx (before_cons (by decide) _)

theorem Grammar.Postfixed.accepted : ∀ {cs : List Char} {tree : Pattern}, Postfixed cs tree →
    ∀ {n : Nat} {w rest : List Char}, cs.length ≤ n → Spaces w →
      Before followPostfixed rest →
      ∃ v, v <:+ w ∧ postfixed (path n) (cs ++ (w ++ rest)) = .ok (tree.normal, v ++ rest)
  | _, _, .intro operand operators, n, w, rest, hlength, hw, hrest => by
    rw [List.length_append] at hlength
    rw [normal_foldl operators, List.append_assoc]
    cases operators with
    | nil =>
      -- The operand stands in front of the spaces, and a group takes them along.
      obtain ⟨v, hv, hatom⟩ := Grammar.Atom.accepted operand (n := n) (by omega) hw
        (hrest.mono (by decide))
      refine ⟨v, hv, postfixed_apply ?_ .nil ((hw.of_suffix hv).before hrest)⟩
      exact hatom
    | @cons es fs op ops first others =>
      -- What follows the operand begins with an operator, so no spaces are taken along.
      have hnext : Before followAtom (es ++ fs ++ (w ++ rest)) := by
        rw [List.append_assoc]
        exact (operator_head first _).mono (by decide)
      obtain ⟨v, hv, hatom⟩ := Grammar.Atom.accepted operand (n := n) (by omega)
        spaces_nil hnext
      obtain rfl := List.suffix_nil.1 hv
      exact ⟨w, List.suffix_rfl, postfixed_apply hatom (.cons first others) (hw.before hrest)⟩

theorem Grammar.Sequence.accepted : ∀ {cs : List Char} {tree : Pattern}, Sequence cs tree →
    ∃ trees, tree = seq trees ∧ ∀ {n : Nat} {w rest : List Char}, cs.length ≤ n →
      Spaces w → Before followSequence rest →
      many1 (lexeme (postfixed (path n))) (cs ++ (w ++ rest)) =
        .ok (trees.map normal, rest)
  | _, _, .one hv first hx => by
    refine ⟨_, rfl, fun {n w rest} hlength hw hrest => ?_⟩
    rw [List.length_append, List.length_append] at hlength
    obtain ⟨u, hu, hfirst⟩ := Grammar.Postfixed.accepted first (n := n) (by omega)
      (hx.append hw) (hrest.mono (by decide))
    have hend : Fails (lexeme (postfixed (path n))) rest :=
      lexeme_fails spaces_nil (hrest.head?_eq_false (by decide)) ((atom_fails hrest).bind _)
    rw [List.append_assoc] at hfirst
    rw [List.append_assoc, List.append_assoc]
    refine many1_singleton (lexeme_eq_ok hv ?_ hfirst ((hx.append hw).of_suffix hu) ?_) hend
    · exact (postfixed_head first _).2.head?_eq_false (by decide)
    · exact hrest.head?_eq_false (by decide)
  | _, _, .more hv first others => by
    obtain ⟨trees, hequal, haccepted⟩ := Grammar.Sequence.accepted others
    obtain rfl := seq.inj hequal
    obtain ⟨x, es, rfl, hx, _, hes⟩ := sequence_head others
    refine ⟨_, rfl, fun {n w rest} hlength hw hrest => ?_⟩
    rw [List.length_append, List.length_append] at hlength
    obtain ⟨u, hu, hfirst⟩ := Grammar.Postfixed.accepted first (n := n) (by omega) hx
      ((hes (w ++ rest)).mono (by decide))
    -- The spaces between the first part and the others are skipped with the first part, while the
    -- derivation of the others has them in front.
    have hothers := haccepted (n := n) (by omega) hw hrest
    rw [List.append_assoc, (skipsSpaces_lexeme _).many1 _ hx] at hothers
    rw [List.append_assoc, List.append_assoc, List.append_assoc]
    refine many1_cons (consumes_postfixed (reads_path n))
      (lexeme_eq_ok hv ?_ hfirst (hx.of_suffix hu) ?_) hothers
    · exact (postfixed_head first _).2.head?_eq_false (by decide)
    · exact (hes _).head?_eq_false (by decide)

theorem Grammar.Alternation.accepted : ∀ {cs : List Char} {tree : Pattern},
    Alternation cs tree →
    ∃ trees, tree = alt trees ∧ ∀ {n : Nat} {w rest : List Char}, cs.length ≤ n →
      Spaces w → Before followAlternation rest →
      sepBy1 (lexeme (char '|')) (sequence (path n)) (cs ++ (w ++ rest)) =
        .ok (trees.map normal, rest)
  | _, _, .one first => by
    obtain ⟨trees, rfl, haccepted⟩ := Grammar.Sequence.accepted first
    refine ⟨_, rfl, fun hlength hw hrest => ?_⟩
    have hfirst := haccepted hlength hw (hrest.mono (by decide))
    refine sepBy1_singleton (sequence_apply hfirst) ?_
    exact lexeme_fails spaces_nil (hrest.head?_eq_false (by decide)) (char_fails hrest (by decide))
  | _, _, .more first hv hx others => by
    obtain ⟨trees, rfl, hfirst⟩ := Grammar.Sequence.accepted first
    obtain ⟨trees', hequal, hothers⟩ := Grammar.Alternation.accepted others
    obtain rfl := alt.inj hequal
    refine ⟨_, rfl, fun {n w rest} hlength hw hrest => ?_⟩
    simp only [List.append_assoc, List.cons_append, List.length_cons, List.length_append]
      at hlength ⊢
    refine sepBy1_cons (by decide) skipsSpaces_sequence (reads_sequence (reads_path n)).length_le
      (sequence_apply (hfirst (by omega) hv (before_cons (by decide) _))) ?_
    exact (skipsSpaces_sequence.sepBy1 _ _ hx).trans (hothers (by omega) hw hrest)

end

theorem exists_not_isBlank {cs : List Char} {tree : Pattern} (h : Alternation cs tree) :
    ∃ c ∈ cs, Text.isBlank c = false := by
  have hsequence : ∀ {cs tree}, Sequence cs tree → ∃ c ∈ cs, Text.isBlank c = false := by
    intro cs tree h
    obtain ⟨w, ds, rfl, _, hsome, hfirst⟩ := sequence_head h
    obtain ⟨c, ds, rfl⟩ := List.exists_cons_of_ne_nil hsome
    have hblank : firstAtom.all (!Text.isBlank ·) = true := by decide
    exact ⟨c, List.mem_append_right w List.mem_cons_self,
      (hfirst []).head?_eq_false hblank c rfl⟩
  cases h with
  | one first => exact hsequence first
  | more first _ _ _ =>
    obtain ⟨c, hc, hblank⟩ := hsequence first
    exact ⟨c, by simp [hc], hblank⟩

/-- A text is read if it is derived, and as the normal form of the tree of a derivation. -/
theorem ofChars_eq_ok_iff {cs : List Char} {p : Pattern} :
    ofChars cs = .ok p ↔ Normalized Written cs p := by
  constructor
  · intro h
    rw [ofChars] at h
    split at h
    · cases h
    · split at h
      · rename_i q hread
        obtain rfl := Except.ok.inj h
        obtain ⟨_, hcs, ⟨hv, ⟨tree, htree, rfl⟩, hw⟩⟩ := reads_lexeme (reads_path _) hread
        rw [List.append_nil] at hcs
        exact ⟨tree, hcs ▸ .intro hv htree hw, rfl⟩
      · cases h
      · cases h
  · rintro ⟨tree, ⟨hv, htree, hw⟩, rfl⟩
    rename_i v ds w
    obtain ⟨trees, rfl, haccepted⟩ := htree.accepted
    have hread := alternation_apply (haccepted (n := (v ++ ds ++ w).length) (by simp; omega) hw
      (before_nil _))
    have hpath : path ((v ++ ds ++ w).length + 1) ((v ++ ds ++ w).dropWhile Text.isSpace) =
        .ok ((alt trees).normal, []) := by
      refine (skipsSpaces_alternation.dropWhile _).trans ?_
      rw [← hread, List.append_nil, List.append_assoc]
      exact skipsSpaces_alternation _ hv
    have hlexeme : lexeme (path ((v ++ ds ++ w).length + 1)) (v ++ ds ++ w) =
        .ok ((alt trees).normal, []) :=
      bind_apply hpath _
    have hblank : (v ++ ds ++ w).all Text.isBlank = false := by
      obtain ⟨c, hc, hblank⟩ := exists_not_isBlank htree
      exact List.all_eq_false.2 ⟨c, by simp [hc], by simp [hblank]⟩
    rw [ofChars, hblank, hlexeme]
    rfl

/-- The texts that are read are those of the grammar, and what is read is the tree of the
derivation, with its sequences and alternations spliced together. -/
theorem ofText_eq_ok_iff (text : String) (p : Pattern) :
    ofText text = .ok p ↔ ∃ tree, Written text.toList tree ∧ tree.normal = p :=
  ofChars_eq_ok_iff

end Pattern
end PathQuery
