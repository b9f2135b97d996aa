import PathQuery.Text.Parser

/-!
# What parsers take and leave

A text is described by relations between characters and the value that they stand for.

* `Reads`: whatever the parser takes off its input is described by a relation;
* `Repeated`, `Spaced`: the relations that belong to repetition and to spaces on both sides;
* `bind_eq_ok`, `orElse_eq_ok` and so on: when a parser succeeds;
* `rounds_cons`, `sepBy1_cons`, `lexeme_eq_ok` and so on: how far repetition goes.

A parser that is greedy takes the text of a relation only if what follows cannot continue it.
`Before` says what may follow.
-/

namespace PathQuery
namespace Parser

variable {α β : Type}

/-! ## Relations between characters and values -/

/-- The characters that the parser takes stand for the value that it answers. -/
def Reads (p : Parser α) (stands : List Char → α → Prop) : Prop :=
  ∀ ⦃s : List Char⦄ ⦃a : α⦄ ⦃rest : List Char⦄, p s = .ok (a, rest) →
    ∃ cs, s = cs ++ rest ∧ stands cs a

/-- A run of spaces, possibly empty. -/
def Spaces (w : List Char) : Prop :=
  ∀ c ∈ w, Text.isSpace c = true

/-- Spaces may stand on both sides. -/
inductive Spaced (stands : List Char → α → Prop) : List Char → α → Prop
  | intro {before cs after : List Char} {a : α} (hbefore : Spaces before) (h : stands cs a)
      (hafter : Spaces after) : Spaced stands (before ++ cs ++ after) a

/-- Spaces may stand before it. -/
inductive Indented (stands : List Char → α → Prop) : List Char → α → Prop
  | intro {before cs : List Char} {a : α} (hbefore : Spaces before) (h : stands cs a) :
    Indented stands (before ++ cs) a

/-- Any number of texts after each other. -/
inductive Repeated (stands : List Char → α → Prop) : List Char → List α → Prop
  | nil : Repeated stands [] []
  | cons {cs ds : List Char} {a : α} {as : List α} (first : stands cs a)
      (others : Repeated stands ds as) : Repeated stands (cs ++ ds) (a :: as)

/-- Every success takes at least one character. -/
def Consumes (p : Parser α) : Prop :=
  ∀ ⦃s : List Char⦄ ⦃a : α⦄ ⦃rest : List Char⦄, p s = .ok (a, rest) → rest.length < s.length

/-- It makes no difference whether spaces stand before the text. -/
def SkipsSpaces (p : Parser α) : Prop :=
  ∀ ⦃w : List Char⦄ (s : List Char), Spaces w → p (w ++ s) = p s

/-- The text ends here, or goes on with one of the characters. -/
def Before (chars : List Char) (rest : List Char) : Prop :=
  ∀ c ∈ rest.head?, c ∈ chars

/-- The parser does not succeed on the text. -/
def Fails (p : Parser α) (s : List Char) : Prop :=
  ∃ at_, p s = .error at_

theorem spaces_nil : Spaces [] :=
  fun _ hc => absurd hc List.not_mem_nil

theorem Spaces.append {v w : List Char} (hv : Spaces v) (hw : Spaces w) : Spaces (v ++ w) :=
  fun c hc => (List.mem_append.1 hc).elim (hv c) (hw c)

theorem Spaces.of_suffix {v w : List Char} (hw : Spaces w) (h : v <:+ w) : Spaces v :=
  fun c hc => hw c (h.subset hc)

theorem Repeated.snoc {stands : List Char → α → Prop} {cs ds : List Char} {a : α} {as : List α}
    (h : Repeated stands cs as) (last : stands ds a) :
    Repeated stands (cs ++ ds) (as ++ [a]) := by
  induction h with
  | nil =>
    have := Repeated.cons last .nil
    rwa [List.append_nil] at this
  | cons first _ ih =>
    rw [List.append_assoc]
    exact .cons first ih

/-- The characters that spaces consist of. -/
def spaceChars : List Char :=
  [' ', '\t', '\r', '\n']

theorem Spaced.prepend {stands : List Char → α → Prop} {cs w : List Char} {a : α} (hw : Spaces w)
    (h : Spaced stands cs a) : Spaced stands (w ++ cs) a := by
  obtain ⟨hbefore, h, hafter⟩ := h
  rw [← List.append_assoc, ← List.append_assoc]
  exact .intro (hw.append hbefore) h hafter

theorem Spaced.append {stands : List Char → α → Prop} {cs w : List Char} {a : α}
    (h : Spaced stands cs a) (hw : Spaces w) : Spaced stands (cs ++ w) a := by
  obtain ⟨hbefore, h, hafter⟩ := h
  rw [List.append_assoc]
  exact .intro hbefore h (hafter.append hw)

theorem Spaced.of_indented {stands : List Char → α → Prop} {cs : List Char} {a : α}
    (h : Spaced (Indented stands) cs a) : Spaced stands cs a := by
  obtain ⟨hv, ⟨hw, h⟩, hx⟩ := h
  rw [← List.append_assoc]
  exact .intro (hv.append hw) h hx

theorem mem_spaceChars {c : Char} : c ∈ spaceChars ↔ Text.isSpace c = true := by
  simp [spaceChars, Text.isSpace, or_assoc]

theorem Spaces.before {w : List Char} (hw : Spaces w) {chars rest : List Char}
    (h : Before chars rest) : Before (spaceChars ++ chars) (w ++ rest) := by
  intro c hc
  cases w with
  | nil => exact List.mem_append_right _ (h c hc)
  | cons d w =>
    obtain rfl : d = c := Option.some.inj hc
    exact List.mem_append_left _ (mem_spaceChars.2 (hw d List.mem_cons_self))

theorem before_nil (chars : List Char) : Before chars [] := by
  simp [Before]

theorem before_cons {c : Char} {chars : List Char} (h : c ∈ chars) (rest : List Char) :
    Before chars (c :: rest) := by
  simpa [Before] using h

theorem Before.mono {chars more rest : List Char} (h : Before chars rest) (hmore : chars ⊆ more) :
    Before more rest :=
  fun c hc => hmore (h c hc)

/-- What may follow is ruled out by a class of characters that has none of them. -/
theorem Before.head?_eq_false {chars rest : List Char} (h : Before chars rest) {p : Char → Bool}
    (hp : chars.all (!p ·) = true) : ∀ c ∈ rest.head?, p c = false :=
  fun c hc => Bool.not_eq_true' _ ▸ List.all_eq_true.1 hp c (h c hc)

/-! ## Classes of characters -/

theorem takeWhile_append {p : Char → Bool} {cs rest : List Char} (hcs : ∀ c ∈ cs, p c = true)
    (hrest : ∀ c ∈ rest.head?, p c = false) : (cs ++ rest).takeWhile p = cs := by
  have hnil : rest.takeWhile p = [] := by
    cases rest with
    | nil => rfl
    | cons c rest => simp [hrest c rfl]
  rw [List.takeWhile_append_of_pos hcs, hnil, List.append_nil]

theorem dropWhile_append {p : Char → Bool} {cs rest : List Char} (hcs : ∀ c ∈ cs, p c = true)
    (hrest : ∀ c ∈ rest.head?, p c = false) : (cs ++ rest).dropWhile p = rest := by
  rw [List.dropWhile_append_of_pos hcs]
  cases rest with
  | nil => rfl
  | cons c rest => simp [hrest c rfl]

theorem mem_takeWhile {p : Char → Bool} {s : List Char} : ∀ c ∈ s.takeWhile p, p c = true :=
  List.all_eq_true.1 List.all_takeWhile

/-! ## Success -/

theorem bind_apply {p : Parser α} {s r : List Char} {a : α} (h : p s = .ok (a, r))
    (f : α → Parser β) : (p >>= f) s = f a r := by
  simp only [Bind.bind, h]

theorem bind_of_error {p : Parser α} {s at_ : List Char} (h : p s = .error at_)
    (f : α → Parser β) : (p >>= f) s = .error at_ := by
  simp only [Bind.bind, h]

theorem bind_eq_ok {p : Parser α} {f : α → Parser β} {s rest : List Char} {b : β} :
    (p >>= f) s = .ok (b, rest) ↔ ∃ a r, p s = .ok (a, r) ∧ f a r = .ok (b, rest) := by
  constructor
  · intro h
    cases hp : p s with
    | error at_ => cases (bind_of_error hp f).symm.trans h
    | ok taken => exact ⟨taken.1, taken.2, rfl, (bind_apply hp f).symm.trans h⟩
  · rintro ⟨a, r, hp, h⟩
    exact (bind_apply hp f).trans h

theorem Fails.bind {p : Parser α} {s : List Char} (h : Fails p s) (f : α → Parser β) :
    Fails (p >>= f) s :=
  h.imp fun _ hp => bind_of_error hp f

theorem pure_eq_ok {a b : α} {s rest : List Char} :
    (pure a : Parser α) s = .ok (b, rest) ↔ a = b ∧ s = rest := by
  change Except.ok (a, s) = _ ↔ _
  simp

theorem char_eq_ok {c : Char} {u : Unit} {s rest : List Char} :
    char c s = .ok (u, rest) ↔ s = c :: rest := by
  cases s with
  | nil => simp [char]
  | cons d s =>
    rw [char]
    split <;> simp_all

theorem char_apply (c : Char) (s : List Char) : char c (c :: s) = .ok ((), s) :=
  if_pos rfl

theorem char_cons_fails {c d : Char} (h : d ≠ c) (s : List Char) : Fails (char c) (d :: s) :=
  ⟨_, if_neg h⟩

theorem char_fails {c : Char} {chars rest : List Char} (h : Before chars rest) (hc : c ∉ chars) :
    Fails (char c) rest := by
  cases rest with
  | nil => exact ⟨_, rfl⟩
  | cons d rest =>
    refine char_cons_fails ?_ rest
    rintro rfl
    exact hc (h d rfl)

theorem orElse_eq_ok {p q : Parser α} {s rest : List Char} {a : α}
    (h : orElse p q s = .ok (a, rest)) : p s = .ok (a, rest) ∨ q s = .ok (a, rest) := by
  rw [orElse] at h
  split at h <;> simp_all

theorem orElse_left {p : Parser α} {s : List Char} {r : α × List Char} (h : p s = .ok r)
    (q : Parser α) : orElse p q s = .ok r := by
  rw [orElse, h]

theorem orElse_right {p : Parser α} {s : List Char} (h : Fails p s) (q : Parser α) :
    orElse p q s = q s := by
  obtain ⟨at_, h⟩ := h
  rw [orElse, h]

theorem optional_some {p : Parser α} {s rest : List Char} {a : α} (h : p s = .ok (a, rest)) :
    optional p s = .ok (some a, rest) := by
  rw [optional, h]

theorem optional_none {p : Parser α} {s : List Char} (h : Fails p s) :
    optional p s = .ok (none, s) := by
  obtain ⟨at_, h⟩ := h
  rw [optional, h]

theorem optional_eq_ok {p : Parser α} {s rest : List Char} {a : Option α}
    (h : optional p s = .ok (a, rest)) :
    (∃ b, a = some b ∧ p s = .ok (b, rest)) ∨ a = none ∧ rest = s := by
  rw [optional] at h
  split at h
  · rename_i b r hp
    obtain ⟨rfl, rfl⟩ := Prod.mk.inj (Except.ok.inj h)
    exact .inl ⟨b, rfl, hp⟩
  · obtain ⟨rfl, rfl⟩ := Prod.mk.inj (Except.ok.inj h)
    exact .inr ⟨rfl, rfl⟩

theorem takeWhile1_eq_ok {p : Char → Bool} {s cs rest : List Char} :
    takeWhile1 p s = .ok (cs, rest) ↔
      cs ≠ [] ∧ s.takeWhile p = cs ∧ s.dropWhile p = rest := by
  rw [takeWhile1]
  split
  · rename_i hnil
    simp only [hnil, reduceCtorEq, false_iff]
    rintro ⟨hcs, rfl, _⟩
    exact hcs rfl
  · rename_i taken hsome
    simp only [Except.ok.injEq, Prod.mk.injEq]
    constructor
    · rintro ⟨rfl, rfl⟩
      exact ⟨hsome, rfl, rfl⟩
    · rintro ⟨_, rfl, rfl⟩
      exact ⟨rfl, rfl⟩

/-! ## Spaces -/

theorem spaces_append {w s : List Char} (hw : Spaces w)
    (hs : ∀ c ∈ s.head?, Text.isSpace c = false) : spaces (w ++ s) = .ok (w, s) := by
  rw [spaces, takeWhile, takeWhile_append hw hs, dropWhile_append hw hs]

theorem lexeme_eq {p : Parser α} (s : List Char) :
    lexeme p s = (p >>= fun a => spaces >>= fun _ => pure a) (s.dropWhile Text.isSpace) :=
  rfl

theorem reads_lexeme {p : Parser α} {stands : List Char → α → Prop} (hp : Reads p stands) :
    Reads (lexeme p) (Spaced stands) := by
  intro s a rest h
  rw [lexeme_eq] at h
  obtain ⟨b, r, hb, h⟩ := bind_eq_ok.1 h
  obtain ⟨w, r', hw, h⟩ := bind_eq_ok.1 h
  obtain ⟨rfl, rfl⟩ := pure_eq_ok.1 h
  obtain ⟨cs, hs, hcs⟩ := hp hb
  obtain ⟨rfl, rfl⟩ := Prod.mk.inj (Except.ok.inj hw)
  refine ⟨_, ?_, .intro (mem_takeWhile (s := s)) hcs (mem_takeWhile (s := r))⟩
  rw [List.append_assoc, List.append_assoc, List.takeWhile_append_dropWhile, ← hs,
    List.takeWhile_append_dropWhile]

theorem skipsSpaces_lexeme (p : Parser α) : SkipsSpaces (lexeme p) := by
  intro w s hw
  rw [lexeme_eq, lexeme_eq, List.dropWhile_append_of_pos hw]

theorem SkipsSpaces.bind {p : Parser α} (hp : SkipsSpaces p) (f : α → Parser β) :
    SkipsSpaces (p >>= f) := by
  intro w s hw
  simp only [Bind.bind, hp s hw]

theorem SkipsSpaces.many1 {p : Parser α} (hp : SkipsSpaces p) : SkipsSpaces (many1 p) :=
  hp.bind _

theorem SkipsSpaces.sepBy1 {p : Parser α} (hp : SkipsSpaces p) (separator : Parser Unit) :
    SkipsSpaces (sepBy1 separator p) :=
  hp.bind _

theorem SkipsSpaces.dropWhile {p : Parser α} (hp : SkipsSpaces p) (s : List Char) :
    p (s.dropWhile Text.isSpace) = p s := by
  rw [← hp (s.dropWhile Text.isSpace) (mem_takeWhile (s := s)), List.takeWhile_append_dropWhile]

/-- A token takes the spaces behind it along. -/
theorem lexeme_char {c : Char} (hc : Text.isSpace c = false) (s : List Char) :
    lexeme (char c) (c :: s) = .ok ((), s.dropWhile Text.isSpace) := by
  rw [lexeme_eq, List.dropWhile_cons_of_neg (by simp [hc]), bind_apply (char_apply c s)]
  rfl

theorem lexeme_eq_ok {p : Parser α} {w s v rest : List Char} {a : α} (hw : Spaces w)
    (hs : ∀ c ∈ s.head?, Text.isSpace c = false) (hp : p s = .ok (a, v ++ rest)) (hv : Spaces v)
    (hrest : ∀ c ∈ rest.head?, Text.isSpace c = false) : lexeme p (w ++ s) = .ok (a, rest) := by
  rw [lexeme_eq, dropWhile_append hw hs, bind_apply hp, bind_apply (spaces_append hv hrest)]
  rfl

theorem lexeme_fails {p : Parser α} {w s : List Char} (hw : Spaces w)
    (hs : ∀ c ∈ s.head?, Text.isSpace c = false) (hp : Fails p s) :
    Fails (lexeme p) (w ++ s) := by
  rw [Fails, lexeme_eq, dropWhile_append hw hs]
  exact hp.bind _

/-! ## Repetition -/

theorem rounds_cons {p : Parser α} {s r : List Char} {a : α} (h : p s = .ok (a, r))
    (hlt : r.length < s.length) : rounds p s = (a :: (rounds p r).1, (rounds p r).2) := by
  rw [rounds, h]
  exact if_pos hlt

theorem rounds_nil {p : Parser α} {s : List Char} (h : Fails p s) : rounds p s = ([], s) := by
  obtain ⟨at_, h⟩ := h
  rw [rounds, h]

theorem rounds_repeated {p : Parser α} {stands : List Char → α → Prop} (hp : Reads p stands)
    (s : List Char) : ∃ cs, s = cs ++ (rounds p s).2 ∧ Repeated stands cs (rounds p s).1 := by
  -- A round that takes nothing ends the repetition, so its answer is not counted.
  fun_induction rounds p s with
  | case1 s at_ h => exact ⟨[], rfl, .nil⟩
  | case2 s a rest h hlt as last hlast ih =>
    obtain ⟨cs, hs, hcs⟩ := hp h
    obtain ⟨ds, hrest, hds⟩ := ih
    rw [hlast] at hrest hds
    refine ⟨cs ++ ds, ?_, .cons hcs hds⟩
    rw [List.append_assoc, ← hrest, ← hs]
  | case3 s a rest h hlt => exact ⟨[], rfl, .nil⟩

theorem reads_many {p : Parser α} {stands : List Char → α → Prop} (hp : Reads p stands) :
    Reads (many p) (Repeated stands) := by
  intro s as rest h
  have hrounds := rounds_repeated hp s
  rw [Except.ok.inj h] at hrounds
  exact hrounds

theorem first_others_eq_ok {p q : Parser α} {s rest : List Char} {as : List α} :
    (do let first ← p; let others ← many q; pure (first :: others) : Parser (List α)) s =
        .ok (as, rest) ↔
      ∃ a r others, p s = .ok (a, r) ∧ rounds q r = (others, rest) ∧ as = a :: others := by
  constructor
  · intro h
    obtain ⟨a, r, ha, h⟩ := bind_eq_ok.1 h
    obtain ⟨others, r', hothers, h⟩ := bind_eq_ok.1 h
    obtain ⟨rfl, rfl⟩ := pure_eq_ok.1 h
    exact ⟨a, r, others, ha, Except.ok.inj hothers, rfl⟩
  · rintro ⟨a, r, others, ha, hothers, rfl⟩
    exact bind_eq_ok.2 ⟨a, r, ha, bind_eq_ok.2 ⟨others, rest, congrArg Except.ok hothers, rfl⟩⟩

theorem many1_eq_ok {p : Parser α} {s rest : List Char} {as : List α} :
    many1 p s = .ok (as, rest) ↔
      ∃ a r others, p s = .ok (a, r) ∧ rounds p r = (others, rest) ∧ as = a :: others :=
  first_others_eq_ok

theorem sepBy1_eq_ok {separator : Parser Unit} {p : Parser α} {s rest : List Char}
    {as : List α} :
    sepBy1 separator p s = .ok (as, rest) ↔ ∃ a r others, p s = .ok (a, r) ∧
      rounds (do separator; p) r = (others, rest) ∧ as = a :: others :=
  first_others_eq_ok

theorem many1_singleton {p : Parser α} {s r : List Char} {a : α} (h : p s = .ok (a, r))
    (hend : Fails p r) : many1 p s = .ok ([a], r) :=
  many1_eq_ok.2 ⟨a, r, [], h, rounds_nil hend, rfl⟩

theorem many1_cons {p : Parser α} (hp : Consumes p) {s r rest : List Char} {a : α} {as : List α}
    (h : p s = .ok (a, r)) (hothers : many1 p r = .ok (as, rest)) :
    many1 p s = .ok (a :: as, rest) := by
  obtain ⟨b, r', bs, hb, hbs, rfl⟩ := many1_eq_ok.1 hothers
  refine many1_eq_ok.2 ⟨a, r, b :: bs, h, ?_, rfl⟩
  rw [rounds_cons hb (hp hb), hbs]

/-! ## Lists with a token between the parts -/

section Separated

variable {c : Char} {p : Parser α} {s r rest : List Char} {a : α} {as : List α}

theorem sepBy1_singleton {separator : Parser Unit} (h : p s = .ok (a, r))
    (hend : Fails separator r) : sepBy1 separator p s = .ok ([a], r) :=
  sepBy1_eq_ok.2 ⟨a, r, [], h, rounds_nil (hend.bind _), rfl⟩

theorem reads_token (c : Char) :
    Reads (lexeme (char c)) (Spaced fun cs _ => cs = [c]) :=
  reads_lexeme fun _ _ _ h => ⟨[c], char_eq_ok.1 h, rfl⟩

theorem Reads.length_le {stands : List Char → α → Prop} (hp : Reads p stands)
    (h : p s = .ok (a, rest)) : rest.length ≤ s.length := by
  obtain ⟨cs, rfl, _⟩ := hp h
  simp

theorem consumes_token (hp : ∀ {s a rest}, p s = .ok (a, rest) → rest.length ≤ s.length) :
    Consumes (do lexeme (char c); p) := by
  intro s a rest h
  obtain ⟨_, r, htoken, hr⟩ := bind_eq_ok.1 h
  obtain ⟨_, rfl, ⟨_, rfl, _⟩⟩ := reads_token c htoken
  have := hp hr
  simp only [List.length_append, List.length_singleton]
  omega

/-- A relation to lists is what a list is read as if it has the lists of one part and can be
extended by a part and a separator in front. -/
theorem reads_sepBy1 {separator : Parser Unit} {separates : List Char → Unit → Prop}
    {stands : List Char → α → Prop} {lists : List Char → List α → Prop}
    (hseparator : Reads separator separates) (hp : Reads p stands)
    (one : ∀ {cs a}, stands cs a → lists cs [a])
    (more : ∀ {cs ds es a as}, stands cs a → separates ds () → lists es as →
      lists (cs ++ ds ++ es) (a :: as)) : Reads (sepBy1 separator p) lists := by
  have hround : Reads (do separator; p) fun cs b =>
      ∃ xs ys, cs = xs ++ ys ∧ separates xs () ∧ stands ys b := by
    intro s b rest h
    obtain ⟨_, r, hs, hr⟩ := bind_eq_ok.1 h
    obtain ⟨xs, rfl, hxs⟩ := hseparator hs
    obtain ⟨ys, rfl, hys⟩ := hp hr
    exact ⟨xs ++ ys, (List.append_assoc ..).symm, xs, ys, rfl, hxs, hys⟩
  intro s as rest h
  obtain ⟨a, r, others, ha, hothers, rfl⟩ := sepBy1_eq_ok.1 h
  obtain ⟨cs, rfl, hcs⟩ := hp ha
  obtain ⟨ds, hr, hds⟩ := rounds_repeated hround r
  rw [hothers] at hr hds
  refine ⟨cs ++ ds, by rw [hr, List.append_assoc], ?_⟩
  -- The first part is carried along, since the list only begins with it.
  change Repeated _ ds others at hds
  clear h ha hothers hr
  induction hds generalizing cs a with
  | nil =>
    rw [List.append_nil]
    exact one hcs
  | cons first _ ih =>
    obtain ⟨xs, ys, rfl, hxs, hys⟩ := first
    rw [List.append_assoc, ← List.append_assoc]
    exact more hcs hxs (ih _ _ hys)

/-- Parts without a separator between them. -/
theorem reads_many1 {stands : List Char → α → Prop} {lists : List Char → List α → Prop}
    (hp : Reads p stands) (one : ∀ {cs a}, stands cs a → lists cs [a])
    (more : ∀ {cs ds a as}, stands cs a → lists ds as → lists (cs ++ ds) (a :: as)) :
    Reads (many1 p) lists := by
  have hnothing : Reads (pure () : Parser Unit) fun cs _ => cs = [] := by
    intro s u rest h
    exact ⟨[], (pure_eq_ok.1 h).2, rfl⟩
  refine reads_sepBy1 hnothing hp one ?_
  rintro cs ds es a as hcs rfl hes
  rw [List.append_nil]
  exact more hcs hes

theorem sepBy1_cons (hc : Text.isSpace c = false) (hskips : SkipsSpaces p)
    (hlength : ∀ {s a rest}, p s = .ok (a, rest) → rest.length ≤ s.length)
    (h : p s = .ok (a, c :: r)) (hothers : sepBy1 (lexeme (char c)) p r = .ok (as, rest)) :
    sepBy1 (lexeme (char c)) p s = .ok (a :: as, rest) := by
  obtain ⟨b, r', bs, hb, hbs, rfl⟩ := sepBy1_eq_ok.1 hothers
  have hround : (do lexeme (char c); p) (c :: r) = .ok (b, r') := by
    rw [bind_apply (lexeme_char hc r), hskips.dropWhile r, hb]
  refine sepBy1_eq_ok.2 ⟨a, c :: r, b :: bs, h, ?_, rfl⟩
  rw [rounds_cons hround (consumes_token hlength hround), hbs]

end Separated

end Parser
end PathQuery
