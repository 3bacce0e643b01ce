import Mathlib.Tactic.Lemma
import Reparse.Proofs.Conservation

/-!
# Shapes

A shape is what remains of what was read when places and comments are left out: the kinds of the
tokens and the rules and fields that group them. An item is tidy if its comments stand where the
readers put them: right before the outermost item that starts with the token after them, except
that a parameter without a name takes the comments after its type along. The main statement,
`Item.eq_of_shapesOf_eq`, says that tidy items are determined by their shapes and their tokens.
-/

namespace Reparse.C

/-- What remains of an item without its place and its comments. -/
inductive Shape where
  | leaf (field : Option Field) (kind : Terminal)
  | node (field : Option Field) (rule : Rule) (parts : List Shape)

namespace Shape

/-- The shape under a field. -/
def under (f : Field) : Shape → Shape
  | leaf _ kind => leaf (some f) kind
  | node _ rule parts => node (some f) rule parts

mutual

/-- The kinds of the tokens of a shape, in order. -/
def leaves : Shape → List Terminal
  | leaf _ kind => [kind]
  | node _ _ parts => leavesOf parts

/-- The kinds of the tokens of several shapes, in order. -/
def leavesOf : List Shape → List Terminal
  | [] => []
  | s :: rest => s.leaves ++ leavesOf rest

end

/-- Whether items of the shape take along the comments after them: parameters without a name
do. -/
def isLoose : Shape → Bool
  | node _ .parameterDeclaration parts => parts.length == 1
  | _ => false

/-- The leaves of shapes come one after the other. -/
@[simp]
lemma leavesOf_append (a b : List Shape) : leavesOf (a ++ b) = leavesOf a ++ leavesOf b := by
  induction a with
  | nil => rfl
  | cons s a ih => simp [leavesOf, ih]

/-- A field changes no leaf of a shape. -/
@[simp]
lemma leaves_under (f : Field) (s : Shape) : (s.under f).leaves = s.leaves := by
  cases s <;> rfl

end Shape

/-- The kinds of some tokens, comments left out. -/
def kinds (ts : List Token) : List Terminal := (ts.filter fun t => !t.isComment).map (·.kind)

/-- The kinds of tokens come one after the other. -/
@[simp]
lemma kinds_append (a b : List Token) : kinds (a ++ b) = kinds a ++ kinds b := by
  simp [kinds]

/-- No tokens have no kinds. -/
@[simp]
lemma kinds_nil : kinds [] = [] := rfl

/-- A comment adds no kind. -/
lemma kinds_cons_comment {t ts} (h : t.isComment = true) : kinds (t :: ts) = kinds ts := by
  simp [kinds, h]

/-- A token that is no comment adds its kind. -/
lemma kinds_cons {t ts} (h : t.isComment = false) : kinds (t :: ts) = t.kind :: kinds ts := by
  simp [kinds, h]

/-- Tokens without a kind are comments. -/
lemma isComment_of_kinds_eq_nil {ts t} (h : kinds ts = []) (ht : t ∈ ts) : t.isComment = true := by
  simp only [kinds, List.map_eq_nil_iff, List.filter_eq_nil_iff] at h
  simpa using h t ht

namespace Item

mutual

/-- The shapes of an item; a comment and a subtree that was taken over have none. -/
def shapes : Item → List Shape
  | token field t => if t.isComment then [] else [.leaf field t.kind]
  | missing field kind => [.leaf field kind]
  | reused _ => []
  | node field rule parts => [.node field rule (shapesOf parts)]

/-- The shapes of several items, in order. -/
def shapesOf : List Item → List Shape
  | [] => []
  | i :: rest => i.shapes ++ shapesOf rest

end

mutual

/-- Whether an item holds an error: text that fits no rule or a token that is not there. -/
def hasError : Item → Bool
  | token _ t => t.kind == .unknown
  | missing _ _ => true
  | reused g => g.label.hasError
  | node _ rule parts => rule == .error || hasErrorOf parts

/-- Whether one of several items holds an error. -/
def hasErrorOf : List Item → Bool
  | [] => false
  | i :: rest => i.hasError || hasErrorOf rest

end

/-- The shapes of items come one after the other. -/
@[simp]
lemma shapesOf_append (a b : List Item) : shapesOf (a ++ b) = shapesOf a ++ shapesOf b := by
  induction a with
  | nil => rfl
  | cons i a ih => simp [shapesOf, ih]

/-- Items in two parts hold an error if one of the parts does. -/
@[simp]
lemma hasErrorOf_append (a b : List Item) :
    hasErrorOf (a ++ b) = (hasErrorOf a || hasErrorOf b) := by
  induction a with
  | nil => rfl
  | cons i a ih => simp [hasErrorOf, ih, Bool.or_assoc]

/-- The shapes of an item under a field are under that field. -/
@[simp]
lemma shapes_under (f : Field) (i : Item) : (i.under f).shapes = i.shapes.map (Shape.under f) := by
  cases i with
  | token field t => cases h : t.isComment <;> simp [under, shapes, h, Shape.under]
  | missing field kind => rfl
  | reused g => rfl
  | node field rule parts => rfl

/-- A field adds no error. -/
@[simp]
lemma hasError_under (f : Field) (i : Item) : (i.under f).hasError = i.hasError := by
  cases i <;> rfl

/-- Whether an item is a comment. -/
def isComment : Item → Bool
  | token _ t => t.isComment
  | _ => false

/-- Whether an item takes along the comments after it: a parameter without a name does. -/
def isLoose : Item → Bool
  | node _ .parameterDeclaration parts => (shapesOf parts).length == 1
  | _ => false

/-- A field makes no comment. -/
@[simp]
lemma isComment_under (f : Field) (i : Item) : (i.under f).isComment = i.isComment := by
  cases i <;> rfl

/-- An item under a field takes comments along if it did. -/
@[simp]
lemma isLoose_under (f : Field) (i : Item) : (i.under f).isLoose = i.isLoose := by
  cases i with
  | node field rule parts => cases rule <;> rfl
  | _ => rfl

/-- Whether items start with a comment. -/
def startsWithComment (is : List Item) : Bool := is.head?.any (·.isComment)

/-- Whether the last of some items is one that takes along the comments after it. -/
def endsLoose (is : List Item) : Bool := is.getLast?.any (·.isLoose)

/-- Whether the last of some items is a comment or takes comments along. -/
def endsOpen (is : List Item) : Bool := is.getLast?.any fun i => i.isComment || i.isLoose

mutual

/-- An item without gaps whose comments stand where the readers put them. -/
def Tidy : Item → Prop
  | token field t => t.isComment = true → field = none
  | missing _ _ => False
  | reused _ => False
  | node field rule parts =>
    TidyAll parts ∧ parts ≠ [] ∧ startsWithComment parts = false ∧
      (isLoose (node field rule parts) = false → endsOpen parts = false)

/-- Items that are tidy one by one and together. -/
def TidyAll : List Item → Prop
  | [] => True
  | i :: rest => i.Tidy ∧ TidyAll rest ∧ (i.isLoose = true → startsWithComment rest = false)

end

/-- No items start with no comment. -/
@[simp]
lemma startsWithComment_nil : startsWithComment [] = false := rfl

/-- Items start with a comment if the first one is one. -/
@[simp]
lemma startsWithComment_cons (i : Item) (rest : List Item) :
    startsWithComment (i :: rest) = i.isComment := rfl

/-- No items take no comments along. -/
@[simp]
lemma endsLoose_nil : endsLoose [] = false := rfl

/-- Items end open if the last one is a comment or takes comments along. -/
@[simp]
lemma endsOpen_append_singleton (is : List Item) (i : Item) :
    endsOpen (is ++ [i]) = (i.isComment || i.isLoose) := by
  simp [endsOpen]

/-- Items take comments along if the last one does. -/
@[simp]
lemma endsLoose_append_singleton (is : List Item) (i : Item) :
    endsLoose (is ++ [i]) = i.isLoose := by
  simp [endsLoose]

/-- Tidy items may be put after tidy items. -/
lemma TidyAll.append {a b} (ha : TidyAll a) (hb : TidyAll b)
    (h : endsLoose a = true → startsWithComment b = false) : TidyAll (a ++ b) := by
  induction a with
  | nil => exact hb
  | cons i a ih =>
    obtain ⟨hi, ha, hs⟩ := ha
    cases a with
    | nil =>
      refine ⟨hi, hb, fun hl => h ?_⟩
      simpa [endsLoose] using hl
    | cons j a =>
      refine ⟨hi, ih ha fun hl => h ?_, hs⟩
      simpa [endsLoose] using hl

/-- A tidy item that is no comment is tidy under a field. -/
lemma Tidy.under {i} (h : Tidy i) (hc : i.isComment = false) (f : Field) : Tidy (i.under f) := by
  cases i with
  | token field t =>
    intro ht
    exact absurd ht (by simpa [isComment] using hc)
  | missing field kind => exact h
  | reused g => exact h
  | node field rule parts =>
    obtain ⟨hp, hne, hs, he⟩ := h
    refine ⟨hp, hne, hs, fun hl => he ?_⟩
    rw [← hl]
    exact (isLoose_under f (node field rule parts)).symm

/-! ## Where items start and end -/

mutual

/-- A tidy item that is no comment starts with a token that is none. -/
lemma Tidy.tokens_head : ∀ {i : Item}, Tidy i → i.isComment = false →
    ∃ t w, i.tokens = t :: w ∧ t.isComment = false
  | token _ t, _, hc => ⟨t, [], rfl, hc⟩
  | missing _ _, h, _ => h.elim
  | reused _, h, _ => h.elim
  | node _ _ _, ⟨hp, hne, hs, _⟩, _ => TidyAll.tokens_head hp hne hs

/-- Tidy items that start with no comment start with a token that is none. -/
lemma TidyAll.tokens_head : ∀ {is : List Item}, TidyAll is → is ≠ [] →
    startsWithComment is = false → ∃ t w, tokensOf is = t :: w ∧ t.isComment = false
  | [], _, hne, _ => absurd rfl hne
  | i :: rest, ⟨hi, _, _⟩, _, hs => by
    obtain ⟨t, w, ht, hc⟩ := Tidy.tokens_head hi hs
    exact ⟨t, w ++ tokensOf rest, by simp [tokensOf, ht], hc⟩

end

mutual

/-- A tidy item that is no comment and takes none along ends with a token that is none. -/
lemma Tidy.tokens_last : ∀ {i : Item}, Tidy i → (i.isComment || i.isLoose) = false →
    ∃ (w : List Token) (t : Token), i.tokens = w ++ [t] ∧ t.isComment = false
  | token _ t, _, hc => ⟨[], t, rfl, by simpa [isComment, isLoose] using hc⟩
  | missing _ _, h, _ => h.elim
  | reused _, h, _ => h.elim
  | node _ _ _, ⟨hp, hne, _, he⟩, hl =>
    TidyAll.tokens_last hp hne (he (by simpa [isComment] using hl))

/-- Tidy items that end with no comment end with a token that is none. -/
lemma TidyAll.tokens_last : ∀ {is : List Item}, TidyAll is → is ≠ [] → endsOpen is = false →
    ∃ (w : List Token) (t : Token), tokensOf is = w ++ [t] ∧ t.isComment = false
  | [], _, hne, _ => absurd rfl hne
  | [i], ⟨hi, _, _⟩, _, he => by
    obtain ⟨w, t, ht, hc⟩ := Tidy.tokens_last hi (by simpa [endsOpen] using he)
    exact ⟨w, t, by simp [tokensOf, ht], hc⟩
  | i :: j :: rest, ⟨_, hr, _⟩, _, he => by
    obtain ⟨w, t, ht, hc⟩ := TidyAll.tokens_last hr (by simp) (by simpa [endsOpen] using he)
    exact ⟨i.tokens ++ w, t, by rw [tokensOf, ht, List.append_assoc], hc⟩

end

/-- A tidy item has tokens. -/
lemma Tidy.exists_mem_tokens {i} (h : Tidy i) : ∃ t, t ∈ i.tokens := by
  cases hc : i.isComment with
  | true =>
    cases i with
    | token field t => exact ⟨t, List.mem_singleton_self t⟩
    | _ => cases hc
  | false =>
    obtain ⟨t, w, ht, -⟩ := h.tokens_head hc
    exact ⟨t, by simp [ht]⟩

/-- A comment is a token under no field. -/
lemma Tidy.eq_token_of_isComment {i} (h : Tidy i) (hc : i.isComment = true) :
    ∃ t, i = token none t ∧ t.isComment = true := by
  cases i with
  | token field t => exact ⟨t, by rw [h hc], hc⟩
  | _ => cases hc

mutual

/-- The tokens of a tidy item have the kinds of its shapes. -/
lemma Tidy.kinds_tokens : ∀ {i : Item}, Tidy i → kinds i.tokens = Shape.leavesOf i.shapes
  | token _ t, _ => by
    cases h : t.isComment <;>
      simp [tokens, shapes, h, kinds_cons, kinds_cons_comment, Shape.leavesOf, Shape.leaves]
  | missing _ _, h => h.elim
  | reused _, h => h.elim
  | node _ _ parts, ⟨hp, _, _, _⟩ => by
    have h := TidyAll.kinds_tokensOf hp
    simpa [tokens, shapes, Shape.leavesOf, Shape.leaves] using h

/-- The tokens of tidy items have the kinds of their shapes. -/
lemma TidyAll.kinds_tokensOf : ∀ {is : List Item}, TidyAll is →
    kinds (tokensOf is) = Shape.leavesOf (shapesOf is)
  | [], _ => rfl
  | i :: rest, ⟨hi, hr, _⟩ => by
    simp [tokensOf, shapesOf, Tidy.kinds_tokens hi, TidyAll.kinds_tokensOf hr]

end

/-! ## Shapes and tokens determine tidy items -/

/-- Whether tokens start with a comment. -/
def commentAhead (ts : List Token) : Bool := ts.head?.any (·.isComment)

/-- Of two ways to cut some tokens, with the same kinds before the cut, the later one takes
comments along. -/
lemma comment_of_prefix {w w' z z' : List Token} (h : w ++ z = w' ++ z')
    (hk : kinds w = kinds w') (hl : w.length < w'.length) :
    commentAhead z = true ∧ ∃ (v : List Token) (t : Token), w' = v ++ [t] ∧ t.isComment = true := by
  obtain ⟨v, hv⟩ : w <+: w' := List.prefix_of_prefix_length_le ⟨z, h⟩ ⟨z', rfl⟩ (Nat.le_of_lt hl)
  subst hv
  have hkv : kinds v = [] := by simpa using hk
  have hne : v ≠ [] := by
    intro hv
    simp [hv] at hl
  have hz : z = v ++ z' := by simpa using h
  constructor
  · obtain ⟨t, v', rfl⟩ := List.exists_cons_of_ne_nil hne
    simp [hz, commentAhead, isComment_of_kinds_eq_nil hkv (List.mem_cons_self ..)]
  · refine ⟨w ++ v.dropLast, v.getLast hne, ?_, isComment_of_kinds_eq_nil hkv (List.getLast_mem _)⟩
    rw [List.append_assoc, List.dropLast_concat_getLast]

/-- Two cuts with the same kinds before them are the same if neither side of them can take
comments along. -/
lemma append_inj_of_kinds {w w' z z' : List Token} (h : w ++ z = w' ++ z')
    (hk : kinds w = kinds w')
    (hw : commentAhead z = true → ∀ (v : List Token) (t : Token), w' = v ++ [t] → t.isComment = false)
    (hw' : commentAhead z' = true → ∀ (v : List Token) (t : Token), w = v ++ [t] → t.isComment = false) :
    w = w' ∧ z = z' := by
  refine List.append_inj h ?_
  rcases Nat.lt_trichotomy w.length w'.length with hl | hl | hl
  · obtain ⟨hz, v, t, hv, ht⟩ := comment_of_prefix h hk hl
    simp [hw hz v t hv] at ht
  · exact hl
  · obtain ⟨hz, v, t, hv, ht⟩ := comment_of_prefix h.symm hk.symm hl
    simp [hw' hz v t hv] at ht

/-- What follows an item that takes comments along starts with none. -/
lemma TidyAll.commentAhead_eq_false : ∀ {is : List Item}, TidyAll is →
    startsWithComment is = false → commentAhead (tokensOf is) = false
  | [], _, _ => rfl
  | i :: rest, h, hs => by
    obtain ⟨t, w, ht, hc⟩ := TidyAll.tokens_head h (by simp) hs
    simp [commentAhead, ht, hc]

/-- The tokens of tidy items start with a comment if the items do. -/
lemma commentAhead_tokensOf {i : Item} {rest} (h : TidyAll (i :: rest)) :
    commentAhead (tokensOf (i :: rest)) = i.isComment := by
  cases hc : i.isComment with
  | true =>
    obtain ⟨t, rfl, ht⟩ := h.1.eq_token_of_isComment hc
    simpa [commentAhead, tokensOf, tokens] using ht
  | false => exact h.commentAhead_eq_false hc

/-- The tokens of two tidy items with the same shapes end in the same place. -/
lemma tokens_inj {i i' : Item} {rest rest' : List Item} (h : TidyAll (i :: rest))
    (h' : TidyAll (i' :: rest')) (hc : i.isComment = false) (hc' : i'.isComment = false)
    (hl : i.isLoose = i'.isLoose) (hs : i.shapes = i'.shapes)
    (ht : tokensOf (i :: rest) = tokensOf (i' :: rest')) :
    i.tokens = i'.tokens ∧ tokensOf rest = tokensOf rest' := by
  obtain ⟨hi, hr, hn⟩ := h
  obtain ⟨hi', hr', hn'⟩ := h'
  have hk : kinds i.tokens = kinds i'.tokens := by rw [hi.kinds_tokens, hi'.kinds_tokens, hs]
  refine append_inj_of_kinds ht hk ?_ ?_
  · intro ha v t hv
    cases hloose : i.isLoose with
    | true => simp [hr.commentAhead_eq_false (hn hloose)] at ha
    | false =>
      obtain ⟨u, s, hu, hsc⟩ := hi'.tokens_last (by simp [hc', ← hl, hloose])
      obtain ⟨-, rfl⟩ := List.append_inj' (hv.symm.trans hu) rfl |>.imp id List.singleton_inj.1
      exact hsc
  · intro ha v t hv
    cases hloose : i'.isLoose with
    | true => simp [hr'.commentAhead_eq_false (hn' hloose)] at ha
    | false =>
      obtain ⟨u, s, hu, hsc⟩ := hi.tokens_last (by simp [hc, hl, hloose])
      obtain ⟨-, rfl⟩ := List.append_inj' (hv.symm.trans hu) rfl |>.imp id List.singleton_inj.1
      exact hsc

/-- A tidy item that is no comment has one shape, which says whether it takes comments along. -/
lemma Tidy.shapes_eq {i} (h : Tidy i) (hc : i.isComment = false) :
    ∃ s, i.shapes = [s] ∧ i.isLoose = s.isLoose := by
  cases i with
  | token field t =>
    refine ⟨.leaf field t.kind, ?_, rfl⟩
    have ht : t.isComment = false := hc
    simp [shapes, ht]
  | missing field kind => exact h.elim
  | reused g => exact h.elim
  | node field rule parts =>
    refine ⟨.node field rule (shapesOf parts), rfl, ?_⟩
    cases rule <;> rfl

mutual

/-- A tidy item is determined by its shape and its tokens. -/
lemma Tidy.eq_of_shapes_eq : ∀ {i i' : Item}, Tidy i → Tidy i' → i.isComment = false →
    i'.isComment = false → i.shapes = i'.shapes → i.tokens = i'.tokens → i = i'
  | token field t, i', _, h', hc, hc', hs, ht => by
    have htc : t.isComment = false := hc
    cases i' with
    | token field' t' =>
      obtain rfl : t = t' := by simpa [tokens] using ht
      obtain rfl : field = field' := by simpa [shapes, htc] using hs
      rfl
    | missing field' kind' => exact h'.elim
    | reused g => exact h'.elim
    | node field' rule' parts' => simp [shapes, htc] at hs
  | missing _ _, _, h, _, _, _, _, _ => h.elim
  | reused _, _, h, _, _, _, _, _ => h.elim
  | node field rule parts, i', h, h', _, hc', hs, ht => by
    cases i' with
    | token field' t' =>
      have htc : t'.isComment = false := hc'
      simp [shapes, htc] at hs
    | missing field' kind' => exact h'.elim
    | reused g => exact h'.elim
    | node field' rule' parts' =>
      obtain ⟨rfl, rfl, hp⟩ : field = field' ∧ rule = rule' ∧ shapesOf parts = shapesOf parts' := by
        simpa [shapes] using hs
      have : parts = parts' := TidyAll.eq_of_shapesOf_eq h.1 h'.1 hp ht
      rw [this]

/-- Tidy items are determined by their shapes and their tokens. -/
lemma TidyAll.eq_of_shapesOf_eq : ∀ {is is' : List Item}, TidyAll is → TidyAll is' →
    shapesOf is = shapesOf is' → tokensOf is = tokensOf is' → is = is'
  | [], [], _, _, _, _ => rfl
  | [], i' :: rest', _, h', _, ht => by
    obtain ⟨t, ht'⟩ := h'.1.exists_mem_tokens
    have : t ∈ tokensOf [] := by
      rw [ht]
      exact List.mem_append_left _ ht'
    cases this
  | i :: rest, [], h, _, _, ht => by
    obtain ⟨t, ht'⟩ := h.1.exists_mem_tokens
    have : t ∈ tokensOf [] := by
      rw [← ht]
      exact List.mem_append_left _ ht'
    cases this
  | i :: rest, i' :: rest', h, h', hs, ht => by
    have hc : i.isComment = i'.isComment := by
      rw [← commentAhead_tokensOf h, ← commentAhead_tokensOf h', ht]
    cases hci : i.isComment with
    | true =>
      obtain ⟨t, rfl, htc⟩ := h.1.eq_token_of_isComment hci
      obtain ⟨t', rfl, htc'⟩ := h'.1.eq_token_of_isComment (hc ▸ hci)
      simp only [tokensOf, tokens, List.singleton_append, List.cons.injEq] at ht
      obtain ⟨rfl, ht⟩ := ht
      have hs' : shapesOf rest = shapesOf rest' := by simpa [shapesOf, shapes, htc] using hs
      rw [TidyAll.eq_of_shapesOf_eq h.2.1 h'.2.1 hs' ht]
    | false =>
      have hci' : i'.isComment = false := hc ▸ hci
      obtain ⟨s, hi, hl⟩ := h.1.shapes_eq hci
      obtain ⟨s', hi', hl'⟩ := h'.1.shapes_eq hci'
      obtain ⟨rfl, hs'⟩ : s = s' ∧ shapesOf rest = shapesOf rest' := by
        simpa [shapesOf, hi, hi'] using hs
      obtain ⟨htok, hrest⟩ := tokens_inj h h' hci hci' (hl.trans hl'.symm) (hi.trans hi'.symm) ht
      rw [Tidy.eq_of_shapes_eq h.1 h'.1 hci hci' (hi.trans hi'.symm) htok,
        TidyAll.eq_of_shapesOf_eq h.2.1 h'.2.1 hs' hrest]

end

end Item

end Reparse.C
