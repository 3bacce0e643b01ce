import Reparse.Proofs.Quotations

/-!
# Legibility

What is written of visible nodes can be read back, if the names of the grammar can be (`Grammar.Legible`):
the names of regular symbols are words, and no other symbol has such a name. The written form of a node
ends with the parenthesis that closes it, so that it is not the beginning of another one
(`Outline.render_append_inj`), and so nodes can be told apart that follow one another
(`Outline.intercalate_inj`). Outside quotes all parentheses are balanced (`Outline.balanced_intercalate`).
-/

namespace Reparse

/-! ## Words -/

/-- Whether a character may stand in a word. -/
def isWordChar (c : Char) : Bool := c.isAlpha || c == '_'

/-- Whether text is a word: letters and underscores, and at least one of them. -/
def IsWord (s : String) : Prop := s ≠ "" ∧ s.toList.all isWordChar = true

instance (s : String) : Decidable (IsWord s) := inferInstanceAs (Decidable (_ ∧ _))

namespace IsWord

variable {s s' : String} {x y : Char} {r r' : List Char}

/-- Every character of a word is one that words are made of. -/
lemma chars (hs : IsWord s) : ∀ c ∈ s.toList, isWordChar c = true := List.all_eq_true.1 hs.2

/-- A word ends where a character follows that may not stand in it. -/
lemma append_inj (hs : IsWord s) (hs' : IsWord s') (hx : isWordChar x = false) (hy : isWordChar y = false)
    (h : s.toList ++ x :: r = s'.toList ++ y :: r') : s = s' ∧ x = y ∧ r = r' := by
  have hgoes : ∀ {s : String}, IsWord s → ∀ z ∈ s.toList, ¬ isWordChar z = false := fun hs z hz =>
    Bool.not_eq_false _ ▸ hs.chars z hz
  obtain ⟨hlist, hrest⟩ := append_cons_inj (hgoes hs) (hgoes hs') hx hy h
  exact ⟨String.toList_inj.1 hlist, hrest⟩

/-- A word begins with a letter or an underscore. -/
lemma exists_cons (hs : IsWord s) : ∃ c rest, s.toList = c :: rest ∧ isWordChar c = true := by
  cases h : s.toList with
  | nil => exact absurd (String.toList_eq_nil_iff.1 h) hs.1
  | cons c rest => exact ⟨c, rest, rfl, hs.chars c (h ▸ List.mem_cons_self ..)⟩

/-- A scan reads over a word. -/
lemma level (hs : IsWord s) : Scan.Level .plain s.toList := by
  refine .plain fun c hc => ?_
  have hchar := hs.chars c hc
  refine ⟨?_, ?_, ?_⟩ <;> (rintro rfl; exact absurd hchar (by decide))

end IsWord

/-! ## Names -/

namespace Grammar

/-- Whether the names of a grammar can be told apart in writing: the names of regular symbols are words,
other than the one for missing nodes, and no other symbol has the name of a regular one or of errors; the
names of fields are words. -/
structure Legible (g : Grammar) : Prop where
  words : ∀ info ∈ g.symbols, info.kind = .regular → IsWord info.name ∧ info.name ≠ "MISSING"
  apart : ∀ info ∈ g.symbols, ∀ other ∈ g.symbols,
    info.name = other.name → info.kind = .regular → other.kind = .regular
  errors : ∀ info ∈ g.symbols, info.name = "ERROR" → info.kind = .regular
  fields : ∀ name ∈ g.fields.tail, IsWord name

/-- Whether a name is that of errors or of a regular symbol. -/
def Named (g : Grammar) (kind : String) : Prop :=
  kind = "ERROR" ∨ ∃ info ∈ g.symbols, info.kind = .regular ∧ info.name = kind

namespace Legible

variable {g : Grammar} {kind : String}

/-- A name of errors or of a regular symbol is a word, and not the one for missing nodes. -/
lemma isWord (hl : g.Legible) (h : g.Named kind) : IsWord kind ∧ kind ≠ "MISSING" := by
  rcases h with rfl | ⟨info, hinfo, hregular, rfl⟩
  · exact ⟨by decide, by decide⟩
  · exact hl.words info hinfo hregular

/-- Whether a symbol is named is known from its name. -/
lemma isNamed_iff (hl : g.Legible) {s : Symbol} : g.isNamed s = true ↔ g.Named (g.kindOf s) := by
  rw [isNamed, beq_iff_eq, symbolKind?, kindOf, symbolName?]
  by_cases hs : s = .error
  · rw [info?, if_pos hs]
    exact ⟨fun _ => .inl rfl, fun _ => rfl⟩
  rw [info?, if_neg hs]
  cases hinfo : g.symbols[s.raw]? with
  | none => exact ⟨nofun, fun h => absurd rfl (hl.isWord h).1.1⟩
  | some info =>
    have hmem := List.mem_of_getElem? hinfo
    constructor
    · exact fun h => .inr ⟨info, hmem, Option.some.inj h, rfl⟩
    · rintro (herror | ⟨other, hother, hregular, hname⟩)
      · exact congrArg some (hl.errors info hmem herror)
      · exact congrArg some (hl.apart other hother info hmem hname hregular)

/-- The name of the field of a node is a word. -/
lemma isWord_label (hl : g.Legible) {labelled : Bool} {field : Option FieldId} :
    ∀ name ∈ g.labelOf labelled field, IsWord name := by
  intro name hname
  rw [labelOf] at hname
  split at hname
  · obtain ⟨f, -, hf⟩ := Option.bind_eq_some_iff.1 hname
    refine hl.fields name (List.mem_of_getElem? (i := f.raw - 1) ?_)
    have hpos := f.raw_pos
    rw [List.getElem?_tail, Nat.sub_add_cancel hpos]
    exact hf
  · cases hname

end Legible

end Grammar

/-! ## Outlines -/

namespace Outline

mutual

/-- Whether the names in the outline of a node are those of a grammar, and a missing node is named exactly
if its name says so. -/
def Proper (g : Grammar) : Outline → Prop
  | missing field isNamed kind => (∀ name ∈ field, IsWord name) ∧ (isNamed = true ↔ g.Named kind)
  | node field kind parts => (∀ name ∈ field, IsWord name) ∧ g.Named kind ∧ ProperAll g parts

/-- The same of several outlines. -/
def ProperAll (g : Grammar) : List Outline → Prop
  | [] => True
  | o :: rest => o.Proper g ∧ ProperAll g rest

end

/-- The field of an outline. -/
def field : Outline → Option String
  | missing field _ _ => field
  | node field _ _ => field

/-- The kind of a missing node as it is written: between quotes unless the node is named. -/
def kindText (isNamed : Bool) (kind : String) : List Char :=
  if isNamed then kind.toList else '"' :: ((Text.plainAscii kind).toList ++ ['"'])

/-- What stands before the kind of a missing node. -/
def missingText : List Char := "MISSING".toList ++ [' ']

/-- What stands between the parentheses of a node. -/
def text : Outline → List Char
  | missing _ isNamed kind => missingText ++ kindText isNamed kind
  | node _ kind parts => kind.toList ++ (renderInner parts).toList

/-- An outline is its field and its text in parentheses. -/
lemma toList_render (o : Outline) :
    o.render.toList = (fieldText o.field).toList ++ '(' :: (o.text ++ [')']) := by
  have hmissing : "(MISSING ".toList = '(' :: missingText := by decide
  have hopen : "(".toList = ['('] := rfl
  have hclose : ")".toList = [')'] := rfl
  have hquote : "\"".toList = ['"'] := rfl
  cases o with
  | missing field isNamed kind =>
    cases isNamed with
    | true =>
      rw [render, if_pos rfl, text, kindText, if_pos rfl, String.toList_append, String.toList_append,
        String.toList_append, hmissing, hclose, List.append_assoc, List.append_assoc]
      rfl
    | false =>
      rw [render, if_neg Bool.false_ne_true, text, kindText, if_neg Bool.false_ne_true]
      simp only [String.toList_append, hmissing, hclose, hquote, List.append_assoc, List.cons_append,
        List.nil_append]
      rfl
  | node field kind parts =>
    simp only [render, String.toList_append, hopen, hclose, text, List.append_assoc, List.cons_append,
      List.nil_append]
    rfl

/-- An outline may be followed by other characters. -/
lemma toList_render_append (o : Outline) (r : List Char) :
    o.render.toList ++ r = (fieldText o.field).toList ++ '(' :: (o.text ++ ')' :: r) := by
  rw [toList_render, List.append_assoc, List.cons_append, List.append_assoc]
  rfl

/-- Inside a node outlines follow blanks. -/
lemma toList_renderInner_cons (o : Outline) (rest : List Outline) :
    (renderInner (o :: rest)).toList = ' ' :: (o.render.toList ++ (renderInner rest).toList) := by
  have hspace : " ".toList = [' '] := rfl
  rw [renderInner, String.toList_append, String.toList_append, hspace, List.append_assoc]
  rfl

variable {g : Grammar} {o o' : Outline} {os os' : List Outline} {r r' : List Char}

/-- The field of a proper outline is a word. -/
lemma Proper.isWord_field (h : o.Proper g) : ∀ name ∈ o.field, IsWord name := by
  cases o with
  | missing field isNamed kind => exact h.1
  | node field kind parts => exact h.1

/-! ## Unique reading -/

/-- No word begins with a quote or a parenthesis. -/
lemma word_append_ne {s : String} {x : Char} (hs : IsWord s) (hx : isWordChar x = false) :
    s.toList ++ r ≠ x :: r' := by
  obtain ⟨c, rest, hc, hchar⟩ := hs.exists_cons
  rw [hc, List.cons_append]
  intro heq
  rw [(List.cons.inj heq).1, hx] at hchar
  cases hchar

/-- A field is known from what is written. -/
lemma fieldText_append_inj {f f' : Option String} (hf : ∀ name ∈ f, IsWord name)
    (hf' : ∀ name ∈ f', IsWord name)
    (h : (fieldText f).toList ++ '(' :: r = (fieldText f').toList ++ '(' :: r') : f = f' ∧ r = r' := by
  have hsome : ∀ (name : String) (r : List Char),
      (fieldText (some name)).toList ++ r = name.toList ++ ':' :: ' ' :: r := by
    intro name r
    have hcolon : ": ".toList = [':', ' '] := rfl
    rw [fieldText, Option.map_some, Option.getD_some, String.toList_append, hcolon, List.append_assoc]
    rfl
  cases f with
  | none =>
    cases f' with
    | none => exact ⟨rfl, (List.cons.inj h).2⟩
    | some name =>
      rw [hsome] at h
      exact absurd h.symm (word_append_ne (hf' name rfl) (by decide))
  | some name =>
    cases f' with
    | none =>
      rw [hsome] at h
      exact absurd h (word_append_ne (hf name rfl) (by decide))
    | some name' =>
      rw [hsome, hsome] at h
      obtain ⟨rfl, -, hrest⟩ := (hf name rfl).append_inj (hf' name' rfl) (by decide) (by decide) h
      exact ⟨rfl, (List.cons.inj (List.cons.inj hrest).2).2⟩

/-- The kind of a missing node is known from what is written, and so is whether the node is named. -/
lemma kindText_append_inj {isNamed isNamed' : Bool} {kind kind' : String}
    (hk : isNamed = true → IsWord kind) (hk' : isNamed' = true → IsWord kind')
    (h : kindText isNamed kind ++ ')' :: r = kindText isNamed' kind' ++ ')' :: r') :
    isNamed = isNamed' ∧ kind = kind' ∧ r = r' := by
  have hquoted : ∀ (kind : String) (r : List Char),
      kindText false kind ++ r = '"' :: ((Text.plainAscii kind).toList ++ '"' :: r) := by
    intro kind r
    rw [kindText, if_neg Bool.false_ne_true, List.cons_append, List.append_assoc]
    rfl
  cases isNamed with
  | true =>
    cases isNamed' with
    | true =>
      obtain ⟨rfl, -, hr⟩ := (hk rfl).append_inj (hk' rfl) (by decide) (by decide) h
      exact ⟨rfl, rfl, hr⟩
    | false =>
      rw [hquoted] at h
      exact absurd h (word_append_ne (hk rfl) (by decide))
  | false =>
    cases isNamed' with
    | true =>
      rw [hquoted] at h
      exact absurd h.symm (word_append_ne (hk' rfl) (by decide))
    | false =>
      rw [hquoted, hquoted] at h
      obtain ⟨rfl, hr⟩ := Text.plainAscii_append_inj (List.cons.inj h).2
      exact ⟨rfl, rfl, (List.cons.inj hr).2⟩

/-- After the name of a node stands a space or a parenthesis. -/
lemma exists_cons_renderInner (os : List Outline) (r : List Char) :
    ∃ x rest, (renderInner os).toList ++ ')' :: r = x :: rest ∧ isWordChar x = false := by
  cases os with
  | nil => exact ⟨')', r, rfl, by decide⟩
  | cons o rest =>
    rw [toList_renderInner_cons]
    exact ⟨' ', _, List.cons_append, by decide⟩

/-- The name of a node is known from what is written. -/
lemma kind_append_inj {kind kind' : String} (hk : IsWord kind) (hk' : IsWord kind')
    (h : kind.toList ++ ((renderInner os).toList ++ ')' :: r) =
      kind'.toList ++ ((renderInner os').toList ++ ')' :: r')) :
    kind = kind' ∧ (renderInner os).toList ++ ')' :: r = (renderInner os').toList ++ ')' :: r' := by
  obtain ⟨x, rest, hx, hchar⟩ := exists_cons_renderInner os r
  obtain ⟨x', rest', hx', hchar'⟩ := exists_cons_renderInner os' r'
  rw [hx, hx'] at h ⊢
  obtain ⟨rfl, rfl, rfl⟩ := hk.append_inj hk' hchar hchar' h
  exact ⟨rfl, rfl⟩

/-- What is written of a missing node is not the beginning of any other node. -/
lemma missing_append_ne {kind : String} (hk : IsWord kind) (hne : kind ≠ "MISSING") :
    missingText ++ r' ≠ kind.toList ++ ((renderInner os).toList ++ ')' :: r) := by
  have hmissing : missingText = "MISSING".toList ++ [' '] := rfl
  obtain ⟨x, rest, hx, hchar⟩ := exists_cons_renderInner os r
  rw [hmissing, List.append_assoc, hx]
  exact fun h => hne (IsWord.append_inj (by decide) hk (by decide) hchar h).1.symm

/-- The field of a node is known from what is written, and so is what follows. -/
lemma field_append_inj (ho : o.Proper g) (ho' : o'.Proper g)
    (h : o.render.toList ++ r = o'.render.toList ++ r') :
    o.field = o'.field ∧ o.text ++ ')' :: r = o'.text ++ ')' :: r' := by
  rw [toList_render_append, toList_render_append] at h
  exact fieldText_append_inj ho.isWord_field ho'.isWord_field h

mutual

/-- A node is known from what is written, and so is where it ends. -/
theorem render_append_inj (hl : g.Legible) : ∀ {o o' : Outline} {r r' : List Char}, o.Proper g →
    o'.Proper g → o.render.toList ++ r = o'.render.toList ++ r' → o = o' ∧ r = r'
  | .missing field isNamed kind, .missing field' isNamed' kind', r, r', ho, ho', h => by
    obtain ⟨rfl, h⟩ := field_append_inj ho ho' h
    simp only [text, List.append_assoc] at h
    obtain ⟨rfl, rfl, hr⟩ := kindText_append_inj (fun hn => (hl.isWord (ho.2.1 hn)).1)
      (fun hn => (hl.isWord (ho'.2.1 hn)).1) (List.append_cancel_left h)
    exact ⟨rfl, hr⟩
  | .missing field isNamed kind, .node field' kind' parts', r, r', ho, ho', h => by
    obtain ⟨-, h⟩ := field_append_inj ho ho' h
    simp only [text, List.append_assoc] at h
    obtain ⟨hword, hne⟩ := hl.isWord ho'.2.1
    exact absurd h (missing_append_ne hword hne)
  | .node field kind parts, .missing field' isNamed' kind', r, r', ho, ho', h => by
    obtain ⟨-, h⟩ := field_append_inj ho ho' h
    simp only [text, List.append_assoc] at h
    obtain ⟨hword, hne⟩ := hl.isWord ho.2.1
    exact absurd h.symm (missing_append_ne hword hne)
  | .node field kind parts, .node field' kind' parts', r, r', ho, ho', h => by
    obtain ⟨rfl, h⟩ := field_append_inj ho ho' h
    simp only [text, List.append_assoc] at h
    obtain ⟨rfl, hparts⟩ := kind_append_inj (hl.isWord ho.2.1).1 (hl.isWord ho'.2.1).1 h
    obtain ⟨rfl, hr⟩ := renderInner_append_inj hl ho.2.2 ho'.2.2 hparts
    exact ⟨rfl, hr⟩

/-- So are the nodes before a closing parenthesis. -/
theorem renderInner_append_inj (hl : g.Legible) : ∀ {os os' : List Outline} {r r' : List Char},
    ProperAll g os → ProperAll g os' →
    (renderInner os).toList ++ ')' :: r = (renderInner os').toList ++ ')' :: r' → os = os' ∧ r = r'
  | [], [], _, _, _, _, h => ⟨rfl, (List.cons.inj h).2⟩
  | [], o' :: rest', r, r', _, _, h => by
    rw [toList_renderInner_cons] at h
    exact absurd (List.cons.inj h).1 (by decide)
  | o :: rest, [], r, r', _, _, h => by
    rw [toList_renderInner_cons] at h
    exact absurd (List.cons.inj h).1 (by decide)
  | o :: rest, o' :: rest', r, r', ho, ho', h => by
    rw [toList_renderInner_cons, toList_renderInner_cons, List.cons_append, List.cons_append,
      List.append_assoc, List.append_assoc] at h
    obtain ⟨rfl, hrest⟩ := render_append_inj hl ho.1 ho'.1 (List.cons.inj h).2
    obtain ⟨rfl, hr⟩ := renderInner_append_inj hl ho.2 ho'.2 hrest
    exact ⟨rfl, hr⟩

end

/-! ## Nodes that follow one another -/

/-- Outlines that are separated by blanks are the first one, and the others as inside a node. -/
lemma intercalate_cons (o : Outline) (rest : List Outline) :
    " ".intercalate ((o :: rest).map render) = o.render ++ renderInner rest := by
  induction rest generalizing o with
  | nil => rw [List.map_cons, List.map_nil, String.intercalate_singleton, renderInner, String.append_empty]
  | cons o' rest ih =>
    rw [List.map_cons, List.map_cons, String.intercalate_cons_cons, ← List.map_cons, ih, renderInner,
      String.append_assoc, String.append_assoc]

/-- No outline is empty. -/
lemma render_ne_empty (o : Outline) : o.render ≠ "" := by
  intro h
  have hlist := congrArg String.toList h
  rw [toList_render] at hlist
  exact absurd hlist (List.append_ne_nil_of_right_ne_nil _ (List.cons_ne_nil _ _))

/-- Nodes that follow one another are known from what is written. -/
theorem intercalate_inj (hl : g.Legible) (h : ProperAll g os) (h' : ProperAll g os')
    (heq : " ".intercalate (os.map render) = " ".intercalate (os'.map render)) : os = os' := by
  have hne : ∀ (o : Outline) (rest : List Outline), " ".intercalate ((o :: rest).map render) ≠ "" := by
    intro o rest hempty
    rw [intercalate_cons, String.append_eq_empty_iff] at hempty
    exact o.render_ne_empty hempty.1
  cases os with
  | nil =>
    cases os' with
    | nil => rfl
    | cons o' rest' => exact absurd heq.symm (hne o' rest')
  | cons o rest =>
    cases os' with
    | nil => exact absurd heq (hne o rest)
    | cons o' rest' =>
      rw [intercalate_cons, intercalate_cons, ← String.toList_inj, String.toList_append,
        String.toList_append] at heq
      obtain ⟨rfl, hrest⟩ := render_append_inj hl h.1 h'.1 heq
      have hclosed := congrArg (· ++ [')']) hrest
      obtain ⟨rfl, -⟩ := renderInner_append_inj hl h.2 h'.2 hclosed
      rfl

/-! ## Balance -/

/-- A scan reads over the name of a field. -/
lemma level_fieldText {f : Option String} (hf : ∀ name ∈ f, IsWord name) :
    Scan.Level .plain (fieldText f).toList := by
  cases f with
  | none => exact .nil
  | some name =>
    rw [fieldText, Option.map_some, Option.getD_some, String.toList_append]
    exact (hf name rfl).level.append fun _ => rfl

/-- A scan reads over the kind of a node. -/
lemma level_kindText {isNamed : Bool} {kind : String} (hk : isNamed = true → IsWord kind) :
    Scan.Level .plain (kindText isNamed kind) := by
  cases isNamed with
  | true => exact (hk rfl).level
  | false => exact (Text.level_plainAscii kind).between

mutual

/-- What is written of a node opens and closes its parentheses. -/
theorem level_render (hl : g.Legible) : ∀ {o : Outline}, o.Proper g → Scan.Level .plain o.render.toList
  | .missing field isNamed kind, ho => by
    rw [toList_render]
    refine (level_fieldText ho.1).append (.inside (.append (fun _ => rfl) (level_kindText fun hn => ?_)))
    exact (hl.isWord (ho.2.1 hn)).1
  | .node field kind parts, ho => by
    rw [toList_render]
    exact (level_fieldText ho.1).append (.inside ((hl.isWord ho.2.1).1.level.append
      (level_renderInner hl ho.2.2)))

/-- A scan reads over what is inside of a node. -/
theorem level_renderInner (hl : g.Legible) : ∀ {os : List Outline}, ProperAll g os →
    Scan.Level .plain (renderInner os).toList
  | [], _ => .nil
  | o :: rest, ho => by
    rw [toList_renderInner_cons]
    exact .append (a := [' ']) (fun _ => rfl) ((level_render hl ho.1).append (level_renderInner hl ho.2))

end

/-- What is written of nodes that follow one another is balanced. -/
theorem balanced_intercalate (hl : g.Legible) (h : ProperAll g os) :
    Balanced (" ".intercalate (os.map render)) := by
  cases os with
  | nil => exact rfl
  | cons o rest =>
    rw [Balanced, intercalate_cons, String.toList_append]
    exact ((level_render hl h.1).append (level_renderInner hl h.2)) 0

end Outline

end Reparse
