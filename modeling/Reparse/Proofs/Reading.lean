import Reparse.Proofs.Derivation

/-!
# Readings

What the readers of single tokens give: comments, then maybe a token. A reading spells some shapes
if its items are tidy and have these shapes; readings that follow one another spell the shapes of
both (`Reading.Spells.append`).
-/

namespace Reparse.C

open Item

/-! ## Comments -/

/-- Items that are comments, under no field. -/
def Item.AllComments (is : List Item) : Prop :=
  ∀ i ∈ is, ∃ t : Token, i = .token none t ∧ t.isComment = true

namespace Item.AllComments

/-- No items are all comments. -/
lemma nil : AllComments [] := fun _ h => by cases h

/-- Of items that are all comments the first one is, and so are the others. -/
lemma cons {i is} (h : AllComments (i :: is)) :
    (∃ t, i = .token none t ∧ t.isComment = true) ∧ AllComments is :=
  ⟨h i (List.mem_cons_self ..), fun j hj => h j (List.mem_cons_of_mem _ hj)⟩

/-- Comments have no shape. -/
lemma shapesOf {is} (h : AllComments is) : shapesOf is = [] := by
  induction is with
  | nil => rfl
  | cons i is ih =>
    obtain ⟨⟨t, rfl, ht⟩, hr⟩ := h.cons
    simp [Item.shapesOf, shapes, ht, ih hr]

/-- Comments are no errors. -/
lemma hasErrorOf {is} (h : AllComments is) : hasErrorOf is = false := by
  induction is with
  | nil => rfl
  | cons i is ih =>
    obtain ⟨⟨t, rfl, ht⟩, hr⟩ := h.cons
    have hk : t.kind = .comment := by simpa [Token.isComment] using ht
    simp [Item.hasErrorOf, hasError, hk, ih hr]

/-- Comments take no comments along. -/
lemma endsLoose {is} (h : AllComments is) : endsLoose is = false := by
  rcases is.eq_nil_or_concat with rfl | ⟨is, i, rfl⟩
  · rfl
  · obtain ⟨t, rfl, -⟩ := h i (by simp)
    simp [isLoose]

/-- Comments are tidy. -/
lemma tidyAll {is} (h : AllComments is) : TidyAll is := by
  induction is with
  | nil => trivial
  | cons i is ih =>
    obtain ⟨⟨t, rfl, ht⟩, hr⟩ := h.cons
    exact ⟨fun _ => rfl, ih hr, fun hl => by cases hl⟩

end Item.AllComments

/-- The next token that is no comment is the first of those that have a kind. -/
lemma ahead?_eq (ts : List Token) : ahead? ts = (kinds ts).head? := by
  induction ts with
  | nil => rfl
  | cons t ts ih =>
    cases h : t.isComment with
    | true =>
      rw [kinds_cons_comment h, ← ih]
      simp [ahead?, h]
    | false => simp [ahead?, kinds_cons h, h]

/-- The comments that are read are comments. -/
lemma allComments_comments (ts : List Token) : AllComments (comments ts).1 := by
  intro i hi
  obtain ⟨t, ht, rfl⟩ := List.mem_map.1 hi
  exact ⟨t, rfl, List.all_eq_true.1 List.all_takeWhile t ht⟩

/-- After the comments comes none. -/
@[simp]
lemma commentAhead_comments (ts : List Token) : commentAhead (comments ts).2 = false := by
  induction ts with
  | nil => rfl
  | cons t ts ih =>
    cases h : t.isComment with
    | true => simpa [comments, h] using ih
    | false => simp [comments, commentAhead, h]

/-- To skip comments leaves the kinds of the tokens. -/
@[simp]
lemma kinds_comments (ts : List Token) : kinds (comments ts).2 = kinds ts := by
  induction ts with
  | nil => rfl
  | cons t ts ih =>
    cases h : t.isComment with
    | true =>
      rw [kinds_cons_comment h, ← ih]
      simp [comments, h]
    | false => simp [comments, h]

/-- To skip comments leaves the token ahead. -/
@[simp]
lemma ahead?_comments (ts : List Token) : ahead? (comments ts).2 = ahead? ts := by
  rw [ahead?_eq, ahead?_eq, kinds_comments]

/-- Where no comment comes next, none is taken. -/
lemma comments_of_commentAhead {ts} (h : commentAhead ts = false) : comments ts = ([], ts) := by
  cases ts with
  | nil => rfl
  | cons t ts =>
    have ht : t.isComment = false := by simpa [commentAhead] using h
    simp [comments, ht]

/-- To skip comments adds no token. -/
lemma length_comments_le (ts : List Token) : (comments ts).2.length ≤ ts.length :=
  (List.dropWhile_sublist _).length_le

/-- What comes after the comments, by the kinds of the tokens. -/
lemma comments_of_kinds {ts k ks} (h : kinds ts = k :: ks) :
    ∃ before t rest, comments ts = (before, t :: rest) ∧ AllComments before ∧
      t.isComment = false ∧ t.kind = k ∧ kinds rest = ks ∧ rest.length < ts.length := by
  have hk := kinds_comments ts
  have hl := length_comments_le ts
  have hc := commentAhead_comments ts
  generalize hr : (comments ts).2 = r at hk hl hc
  cases r with
  | nil => simp [h] at hk
  | cons t rest =>
    have ht : t.isComment = false := by simpa [commentAhead] using hc
    rw [kinds_cons ht, h] at hk
    obtain ⟨hkind, hrest⟩ := List.cons.inj hk
    exact ⟨(comments ts).1, t, rest, by rw [← hr], allComments_comments ts, ht, hkind, hrest,
      Nat.lt_of_succ_le hl⟩

/-- Tokens with a kind that start with no comment start with a token of the first kind. -/
lemma exists_cons_of_kinds {ts k ks} (h : kinds ts = k :: ks) (hc : commentAhead ts = false) :
    ∃ t rest, ts = t :: rest ∧ t.isComment = false ∧ t.kind = k ∧ kinds rest = ks := by
  obtain ⟨before, t, rest, hts, -, ht, hk, hr, -⟩ := comments_of_kinds h
  rw [comments_of_commentAhead hc] at hts
  exact ⟨t, rest, (Prod.mk.inj hts).2, ht, hk, hr⟩

/-! ## Single tokens -/

/-- A token that is no comment is taken alone. -/
lemma take_cons (field : Option Field) {t : Token} (ht : t.isComment = false)
    (rest : List Token) : take field (t :: rest) = ([.token field t], rest) := by
  have hc : comments (t :: rest) = ([], t :: rest) :=
    comments_of_commentAhead (by simpa [commentAhead] using ht)
  simp [take, hc]

/-- A token of the expected kind is taken with the comments before it. -/
lemma take_of_kinds {ts k ks} (field : Option Field) (h : kinds ts = k :: ks) :
    ∃ before t rest, take field ts = (before ++ [Item.token field t], rest) ∧ AllComments before ∧
      t.isComment = false ∧ t.kind = k ∧ kinds rest = ks ∧ rest.length < ts.length := by
  obtain ⟨before, t, rest, hc, hb, ht, hk, hr, hl⟩ := comments_of_kinds h
  exact ⟨before, t, rest, by simp [take, hc], hb, ht, hk, hr, hl⟩

/-- Where a token is due, fewer are left after it is taken. -/
lemma length_take_lt {ts k ks} (field : Option Field) (h : kinds ts = k :: ks) :
    (take field ts).2.length < ts.length := by
  obtain ⟨before, t, rest, ht, -, -, -, -, hl⟩ := take_of_kinds field h
  rwa [ht]

/-- A token that is expected and due is taken. -/
lemma expect_of_kinds {ts k ks} (field : Option Field) (h : kinds ts = k :: ks) :
    expect k field ts = take field ts := by
  simp [expect, ahead?_eq, h]

/-- A token that need not be there and is due is taken. -/
lemma takeIf_of_kinds {ts k ks} (field : Option Field) (h : kinds ts = k :: ks) :
    takeIf k field ts = take field ts := by
  simp [takeIf, ahead?_eq, h]

/-- Where another token is due, only comments are taken. -/
lemma takeIf_of_ne {ts k} {field : Option Field} (h : (kinds ts).head? ≠ some k) :
    takeIf k field ts = comments ts := by
  simp [takeIf, ahead?_eq, h]

/-- A token that was expected and is no error was there. -/
lemma kinds_of_expect {k field ts} (h : hasErrorOf (expect k field ts).1 = false) :
    ∃ ks, kinds ts = k :: ks := by
  unfold expect at h
  split at h
  · rename_i ha
    rw [ahead?_eq] at ha
    obtain ⟨ks, hks⟩ := List.head?_eq_some_iff.1 ha
    exact ⟨ks, hks⟩
  · simp [hasErrorOf, hasError] at h

/-! ## What a reading spells -/

/-- A reading of tidy items with the given shapes. An item that takes comments along has taken all
of them. -/
structure Reading.Spells (r : Reading) (ss : List Shape) : Prop where
  shapes : shapesOf r.1 = ss
  tidy : TidyAll r.1
  closed : endsLoose r.1 = true → commentAhead r.2 = false

/-- Readings that follow one another spell the shapes of both. -/
lemma Reading.Spells.append {r q : Reading} {ss ss'} (h : r.Spells ss) (h' : q.Spells ss')
    (hk : q.Keeps r.2) : Reading.Spells (r.1 ++ q.1, q.2) (ss ++ ss') := by
  refine ⟨by rw [shapesOf_append, h.shapes, h'.shapes], h.tidy.append h'.tidy ?_, ?_⟩
  · intro hl
    have hr := h.closed hl
    cases hq : q.1 with
    | nil => rfl
    | cons i rest =>
      have ht := hq ▸ h'.tidy
      rw [startsWithComment_cons, ← commentAhead_tokensOf ht, ← hq]
      have : commentAhead (tokensOf q.1 ++ q.2) = false := by rw [show _ ++ _ = _ from hk, hr]
      obtain ⟨t, ht⟩ := ht.1.exists_mem_tokens
      rw [hq] at this ⊢
      cases hw : tokensOf (i :: rest) with
      | nil => rfl
      | cons u w => simpa [hw, commentAhead] using this
  · intro hl
    rcases q.1.eq_nil_or_concat with hq | ⟨is, i, hq⟩
    · have hqr : q.2 = r.2 := by simpa [Reading.Keeps, hq, tokensOf] using hk
      exact hqr ▸ h.closed (by simpa [hq] using hl)
    · refine h'.closed ?_
      simp only [hq, List.concat_eq_append, ← List.append_assoc, endsLoose_append_singleton] at hl ⊢
      exact hl

/-- Comments spell nothing. -/
lemma Item.AllComments.spells {is} (h : AllComments is) (rest : List Token) :
    Reading.Spells (is, rest) [] :=
  ⟨h.shapesOf, h.tidyAll, fun hl => by simp [h.endsLoose] at hl⟩

/-- Comments spell nothing. -/
lemma spells_comments (ts : List Token) : Reading.Spells (comments ts) [] :=
  (allComments_comments ts).spells _

/-- An item that is no comment and takes none along spells its shape. -/
lemma Item.Tidy.spells {i : Item} (h : i.Tidy) (hl : i.isLoose = false) (rest : List Token) :
    Reading.Spells ([i], rest) i.shapes :=
  ⟨by simp [shapesOf], ⟨h, trivial, fun _ => rfl⟩, fun hl' => by simp [endsLoose, hl] at hl'⟩

/-- A token spells a leaf. -/
lemma spells_token {t : Token} (field : Option Field) (ht : t.isComment = false)
    (rest : List Token) : Reading.Spells ([.token field t], rest) [.leaf field t.kind] := by
  have h : (Item.token field t).Tidy := fun h => by simp [ht] at h
  simpa [shapes, ht] using h.spells rfl rest

/-- To take the token that is due spells a leaf. -/
lemma spells_take {ts k ks} (field : Option Field) (h : kinds ts = k :: ks) :
    (take field ts).Spells [.leaf field k] := by
  obtain ⟨before, t, rest, ht, hb, hc, rfl, -⟩ := take_of_kinds field h
  have hk := keeps_take field ts
  rw [ht] at hk ⊢
  exact (hb.spells (t :: rest)).append (spells_token field hc rest) (by simp [Reading.Keeps, tokensOf, tokens])

/-- A node whose parts start and end with items that are no comments is tidy. -/
lemma Item.tidy_node {field rule parts a m z} (hp : TidyAll parts) (he : parts = a :: (m ++ [z]))
    (ha : a.isComment = false) (hz : (z.isComment || z.isLoose) = false) :
    (Item.node field rule parts).Tidy := by
  subst he
  refine ⟨hp, by simp, ha, fun _ => ?_⟩
  rw [← List.cons_append, endsOpen_append_singleton, hz]

/-! ## Parameters and declarators by their first tokens -/

/-- A parameter is read where one may start. -/
lemma parameter_of_mem {ts kind} (ha : ahead? ts = some kind) (hf : kind ∈ parameterFirst) :
    parameter ts =
      (([.node none .parameterDeclaration ((expect .primitiveType (some .type) ts).1 ++
          (takeIf .identifier (some .declarator) (expect .primitiveType (some .type) ts).2).1)],
        (takeIf .identifier (some .declarator) (expect .primitiveType (some .type) ts).2).2),
        true) := by
  simp [parameter, ha, hf]

/-- Where none may start, no parameter is read. -/
lemma parameter_of_notMem {ts} (h : ∀ kind, ahead? ts = some kind → kind ∉ parameterFirst) :
    parameter ts = (([], ts), false) := by
  unfold parameter
  split
  · rename_i kind ha
    rw [if_neg (h kind ha)]
  · rfl

/-- At the end of the input a declarator is missing. -/
lemma declarator_of_nil {ts before} (hc : comments ts = (before, [])) :
    declarator ts = ((before ++ [Item.missing (some .declarator) .identifier], []), false) := by
  simp [declarator, hc]

/-- Where no name is due, a declarator is missing. -/
lemma declarator_of_ne {ts before t rest} (hc : comments ts = (before, t :: rest))
    (ht : t.kind ≠ .identifier) : declarator ts =
      ((before ++ [Item.missing (some .declarator) .identifier], t :: rest), false) := by
  simp [declarator, hc, ht]

/-- A name before a parenthesis declares a function. -/
lemma declarator_of_leftParen {ts before t rest} (hc : comments ts = (before, t :: rest))
    (ht : t.kind = .identifier) (ha : ahead? rest = some .leftParen) : declarator ts =
      ((before ++ [Item.node (some .declarator) .functionDeclarator (.token (some .declarator) t ::
          ((comments rest).1 ++ [Item.node (some .parameters) .parameterList
            (parenthesized parameterFirst parameter (comments rest).2).1]))],
        (parenthesized parameterFirst parameter (comments rest).2).2), true) := by
  simp [declarator, hc, ht, ha]

/-- A name before an equals sign declares a variable with a value. -/
lemma declarator_of_equals {ts before t rest} (hc : comments ts = (before, t :: rest))
    (ht : t.kind = .identifier) (ha : ahead? rest = some .equals) : declarator ts =
      ((before ++ [Item.node (some .declarator) .initDeclarator (.token (some .declarator) t ::
          ((comments rest).1 ++ (take none (comments rest).2).1 ++
            ((expression (take none (comments rest).2).2).orMissing (some .value)).1))],
        ((expression (take none (comments rest).2).2).orMissing (some .value)).2), false) := by
  simp [declarator, hc, ht, ha]

/-- Any other name is a declarator alone. -/
lemma declarator_of_other {ts before t rest} (hc : comments ts = (before, t :: rest))
    (ht : t.kind = .identifier) (hp : ahead? rest ≠ some .leftParen)
    (he : ahead? rest ≠ some .equals) : declarator ts =
      ((before ++ .token (some .declarator) t :: (comments rest).1, (comments rest).2), false) := by
  simp only [declarator, hc, ht, if_true, ahead?_comments]

/-- Whether what follows a declarator is the body of a function. -/
def bodyAhead (mayDefine : Bool) (ts : List Token) : Bool :=
  mayDefine && (declarator ts).2 && ahead? (declarator ts).1.2 == some .leftBrace

/-- The parts of a declaration after its type and its first declarator. -/
def declarationTail (ts : List Token) : Reading :=
  let between := comments (declarator ts).1.2
  let more := moreDeclarators between.2.length between.2
  let semicolon := expect .semicolon none more.2
  (between.1 ++ more.1 ++ semicolon.1, semicolon.2)

/-- Where a body may follow, a brace after the declarator opens it. -/
lemma declaration_of_bodyAhead {mayDefine ts} (t : Token) (h : bodyAhead mayDefine ts = true) :
    ∃ brace rest, (comments (declarator ts).1.2).2 = brace :: rest ∧ brace.kind = .leftBrace ∧
      declaration mayDefine t ts = (.opened (some (.token (some .type) t ::
        ((declarator ts).1.1 ++ (comments (declarator ts).1.2).1))) brace, rest) := by
  simp only [bodyAhead, Bool.and_eq_true, beq_iff_eq] at h
  obtain ⟨⟨hm, hf⟩, ha⟩ := h
  obtain ⟨ks, hks⟩ := List.head?_eq_some_iff.1 ((ahead?_eq _).symm.trans ha)
  obtain ⟨before, brace, rest, hc, -, -, hk, -⟩ := comments_of_kinds hks
  exact ⟨brace, rest, by rw [hc], hk, by simp [declaration, hc, hm, hf, hk]⟩

/-- Where no body follows, further declarators may. -/
lemma declaration_of_not_bodyAhead {mayDefine ts} (t : Token)
    (h : bodyAhead mayDefine ts = false) : declaration mayDefine t ts =
      (.whole (.node none .declaration (.token (some .type) t ::
        ((declarator ts).1.1 ++ (declarationTail ts).1))), (declarationTail ts).2) := by
  unfold declaration
  dsimp only
  split
  · rename_i brace rest hc
    have hb : brace.isComment = false := by
      have := commentAhead_comments (declarator ts).1.2
      rw [hc] at this
      simpa [commentAhead] using this
    have ha : ahead? (declarator ts).1.2 = some brace.kind := by
      rw [← ahead?_comments, hc, ahead?_eq, kinds_cons hb]
      rfl
    rw [if_neg]
    · simp [declarationTail, hc]
    · simpa [bodyAhead, ha] using h
  · rename_i hc
    simp [declarationTail, hc]

end Reparse.C
