import Reparse.Proofs.Progress

/-!
# Reparsing

A text and a tree of it are changed together, by edits that match (`EditedAlong`) or that are made for
replacements (`Replaced`). Parsing the text that they
end with, with the tree that they end with as the old tree, gives the tree of a parse without an old
tree (`reparse_agrees`), where the text is settled and the texts that were parsed before were. A line
that ends inside a string may break this (`exists_reparse_not_agrees`).
-/

namespace Reparse

/-! ## Documents and trees that are edited together -/

/-- Whether edits turn a document and a tree into others. Each of them is allowed between the two documents
from one to the other of which it leads, and these do not reach beyond the last byte that can be counted. -/
inductive Rewritten (Allowed : Edit → Document → Document → Prop) :
    Document → Tree → Document → Tree → Prop where
  | refl {d t} : Rewritten Allowed d t d t
  | tail {d t d' t' d'' e} (generation : Nat) :
    Rewritten Allowed d t d' t' → Allowed e d' d'' → d''.bytes.length ≤ limit →
    Rewritten Allowed d t d'' (t'.edit generation e)

/-- Whether an edit is made for a replacement from the text of one document, and the other one is what the
replacement makes of it. -/
def Edit.Replaces (e : Edit) (d d' : Document) : Prop :=
  ∃ start stop replacement, start ≤ stop ∧ stop ≤ d.bytes.length ∧
    ofReplacement? d.bytes start stop replacement = some e ∧
    d' = ⟨applyTo d.bytes start stop replacement, d.encoding⟩

/-- Whether edits that match turn a document and a tree into others. -/
abbrev EditedAlong := Rewritten Edit.Rewrites

/-- Whether replacements of text turn a document and a tree into others. Each is described by the edit
that is made from the text that it is applied to. -/
abbrev Replaced := Rewritten Edit.Replaces

/-- What edits do that are allowed, those do that are allowed because of it. They may rely on what the
documents between them keep. -/
lemma Rewritten.of_allowed {Allowed Allowed' : Edit → Document → Document → Prop} {P : Document → Prop}
    {d₀ d : Document} {t₀ t : Tree} (h : Rewritten Allowed d₀ t₀ d t) (h₀ : P d₀)
    (hstep : ∀ {e d d'}, P d → Allowed e d d' → d'.bytes.length ≤ limit → P d' ∧ Allowed' e d d') :
    P d ∧ Rewritten Allowed' d₀ t₀ d t := by
  induction h with
  | refl => exact ⟨h₀, .refl⟩
  | tail generation _ he hl ih =>
    obtain ⟨hd, hrewritten⟩ := ih
    obtain ⟨hd', he'⟩ := hstep hd he hl
    exact ⟨hd', hrewritten.tail generation he' hl⟩

/-- The edit that is made for a replacement in a text turns it into the text with the replacement. -/
lemma Edit.turns_applyTo {text replacement : List UInt8} {start stop : Nat} {e : Edit}
    (hstart : start ≤ stop) (hstop : stop ≤ text.length) (hl : text.length ≤ limit)
    (hl' : (applyTo text start stop replacement).length ≤ limit)
    (he : ofReplacement? text start stop replacement = some e) :
    e.Turns text (applyTo text start stop replacement) ∧ e.start.bytes = start ∧
      e.oldEnd.bytes = stop ∧ e.newEnd.bytes = start + replacement.length := by
  have hlength : (applyTo text start stop replacement).length =
      start + replacement.length + (text.length - stop) := by
    simp only [applyTo, List.length_append, List.length_take, List.length_drop]
    omega
  rw [ofReplacement?] at he
  split at he
  case isFalse => cases he
  obtain rfl := Option.some.inj he
  have hcount : ∀ x ≤ limit, Span.countOf x = x := fun x hx => Nat.mod_eq_of_lt (by omega)
  have h1 := hcount start (by omega)
  have h2 := hcount stop (by omega)
  have h3 := hcount (start + replacement.length) (by omega)
  refine ⟨⟨?_, ?_, ?_, replacement, ?_, ?_⟩, h1, h2, h3⟩
  all_goals simp only [h1, h2, h3]
  · exact hstart
  · exact hstop
  · exact Nat.le_add_right _ _
  · exact (Nat.add_sub_cancel_left _ _).symm
  · rfl

/-- The edits that are made for replacements match. -/
lemma Replaced.editedAlong {d₀ d : Document} {t₀ t : Tree} (h : Replaced d₀ t₀ d t)
    (hd : d₀.bytes.length ≤ limit) : EditedAlong d₀ t₀ d t := by
  refine (Rewritten.of_allowed (P := fun d => d.bytes.length ≤ limit) h hd fun hd he hl => ⟨hl, ?_⟩).2
  obtain ⟨start, stop, replacement, hstart, hstop, he, rfl⟩ := he
  exact ⟨(Edit.turns_applyTo hstart hstop hd hl he).1, rfl⟩

/-- A replacement is one more of them. -/
lemma Replaced.tail {d₀ d : Document} {t₀ t : Tree} {start stop : Nat} {replacement : List UInt8} {e : Edit}
    (generation : Nat) (h : Replaced d₀ t₀ d t) (hstart : start ≤ stop) (hstop : stop ≤ d.bytes.length)
    (hl : (Edit.applyTo d.bytes start stop replacement).length ≤ limit)
    (he : Edit.ofReplacement? d.bytes start stop replacement = some e) :
    Replaced d₀ t₀ ⟨Edit.applyTo d.bytes start stop replacement, d.encoding⟩ (t.edit generation e) :=
  Rewritten.tail generation h ⟨start, stop, replacement, hstart, hstop, he, rfl⟩ hl

namespace C

/-- What matches a document matches what it is turned into. -/
lemma Matches.editedAlong {strict : Prop} {d d' : Document} {t t' : Tree} (h : Matches strict d t)
    (hr : EditedAlong d t d' t') : Matches strict d' t' := by
  induction hr with
  | refl => exact h
  | tail generation _ he hl ih => exact ih.edited generation he hl

/-- Calls that build the tree of one settled source build trees that agree. -/
lemma Builds.agrees {source : Source} {e e' : State} {items items' : List Item} {t t' : Tree}
    (h : Builds True source e items t) (h' : Builds True source e' items' t') : t.Agrees t' := by
  obtain rfl := finished_unique (h.good.fresh trivial) (h'.good.fresh trivial) h.finished h'.finished
  obtain rfl := Step.finished.inj (h.finished.symm.trans h'.finished)
  exact Tree.agrees_of_bare (h.root.trans h'.root.symm)

/-- A settled document that replacements have made of another one, whose tree was parsed from settled
documents, has the same tree if it is parsed with the tree that these edits have made of that one as
if it is parsed without. -/
theorem reparse_agrees {p p' : Parser Checkpoint} {d₀ d : Document} {t₀ t : Tree}
    {outside outside' : Outside} (generation generation' : Nat) (h₀ : Matches True d₀ t₀)
    (hr : Replaced d₀ t₀ d t) (hp : Used True p) (hp' : Used True p')
    (hranges : p'.includedRanges = p.includedRanges)
    (hs : Settled (.ofDocument d p.includedRanges))
    (hn : NeverFires (p.probes outside) (.start p.timeout))
    (hn' : NeverFires (p'.probes outside') (.start p'.timeout)) :
    ∃ t₁ t₂, (p.parse outside generation d (some t)).1 = .ok t₁ ∧
      (p'.parse outside' generation' d none).1 = .ok t₂ ∧ t₁.Agrees t₂ := by
  have hs' : Settled (.ofDocument d p'.includedRanges) := by
    rw [hranges]
    exact hs
  have ht := h₀.editedAlong (hr.editedAlong h₀.known.1)
  have hold : ∀ u ∈ some t, Matches True d u := by
    rintro _ ⟨⟩
    exact ht
  have hnone : ∀ u ∈ (none : Option Tree), Matches True d u := by
    rintro _ ⟨⟩
  obtain ⟨t₁, h₁⟩ := (hp.parse_cases hold (fun _ => hs) outside generation).resolve_right
    fun ⟨h, _⟩ => h hn
  obtain ⟨t₂, h₂⟩ := (hp'.parse_cases hnone (fun _ => hs') outside' generation').resolve_right
    fun ⟨h, _⟩ => h hn'
  obtain ⟨e₁, items₁, hbuilds₁⟩ := hp.builds hold ht.known.1 (fun _ => hs) h₁
  obtain ⟨e₂, items₂, hbuilds₂⟩ := hp'.builds hnone ht.known.1 (fun _ => hs') h₂
  rw [hranges] at hbuilds₂
  exact ⟨t₁, t₂, by rw [h₁], by rw [h₂], hbuilds₁.agrees hbuilds₂⟩

/-- The edit that makes `"` of the byte 4 of a text. -/
def quoted : Edit := ⟨⟨4, ⟨1, 0⟩⟩, ⟨5, ⟨1, 1⟩⟩, ⟨5, ⟨1, 1⟩⟩⟩

/-- A word is replaced in `x;` and what comes of it is parsed with the tree of `x;`. -/
theorem reparse_agrees_statement :
    ∃ t₀ t₁ t₂, (plainParser.parse stillWorld 0 ⟨[120, 59], .utf8⟩ none).1 = .ok t₀ ∧
      (plainParser.parse stillWorld 2 ⟨[121, 122, 59], .utf8⟩
        (some (t₀.edit 1 ⟨.zero, ⟨1, ⟨0, 1⟩⟩, ⟨2, ⟨0, 2⟩⟩⟩))).1 = .ok t₁ ∧
      (plainParser.parse stillWorld 3 ⟨[121, 122, 59], .utf8⟩ none).1 = .ok t₂ ∧ t₁.Agrees t₂ := by
  have hused : Used True plainParser := .new rfl rfl
  obtain ⟨-, -, t₀, -, -, -, hp⟩ := @parse_of_neverFires plainParser stillWorld ⟨[120, 59], .utf8⟩ 0
    rfl neverFires_plainParser
  have hmatches : Matches True ⟨[120, 59], .utf8⟩ t₀ :=
    .parsed hused (fun _ ht => by cases ht) (by decide) (fun _ => by decide) hp
  have hreplaced : Replaced ⟨[120, 59], .utf8⟩ t₀ ⟨[121, 122, 59], .utf8⟩
      (t₀.edit 1 ⟨.zero, ⟨1, ⟨0, 1⟩⟩, ⟨2, ⟨0, 2⟩⟩⟩) :=
    @Replaced.tail _ _ _ _ 0 1 [121, 122] _ 1 .refl (by decide) (by decide) (by decide) (by decide)
  obtain ⟨t₁, t₂, h₁, h₂, hagrees⟩ := reparse_agrees 2 3 hmatches hreplaced hused hused rfl
    (by decide) neverFires_plainParser neverFires_plainParser
  exact ⟨t₀, t₁, t₂, by rw [hp], h₁, h₂, hagrees⟩

/-- A line that ends inside a string, then a semicolon and a statement on a line of their own. -/
def openString : Document := ⟨[34, 97, 98, 10, 59, 99, 100, 59], .utf8⟩

/-- The same with a quote in the place of the first semicolon, which opens a string there. -/
def closedString : Document := ⟨[34, 97, 98, 10, 34, 99, 100, 59], .utf8⟩

/-- The statement after the quote is taken over from the old tree, but read without an old tree it is
the content of a string. -/
theorem exists_reparse_not_agrees :
    ∃ t₀ t t₁ t₂, (plainParser.parse stillWorld 0 openString none).1 = .ok t₀ ∧
      Replaced openString t₀ closedString t ∧
      (plainParser.parse stillWorld 2 closedString (some t)).1 = .ok t₁ ∧
      (plainParser.parse stillWorld 3 closedString none).1 = .ok t₂ ∧ ¬ t₁.Agrees t₂ := by
  have hused : Used False plainParser := .new rfl rfl
  obtain ⟨-, -, t₀, -, -, -, hp⟩ := @parse_of_neverFires plainParser stillWorld openString 0
    rfl neverFires_plainParser
  have hmatches : Matches False openString t₀ :=
    .parsed hused (fun _ ht => by cases ht) (by decide) (fun hf => hf.elim) hp
  have hreplaced : Replaced openString t₀ closedString (t₀.edit 1 quoted) :=
    @Replaced.tail _ _ _ _ 4 5 [34] _ 1 .refl (by decide) (by decide) (by decide) (by decide)
  have hold : ∀ u ∈ some (t₀.edit 1 quoted), Matches False closedString u := by
    rintro _ ⟨⟩
    exact hmatches.editedAlong (hreplaced.editedAlong (by decide))
  obtain ⟨t₁, h₁⟩ := (hused.parse_cases hold (fun hf => hf.elim) stillWorld 2).resolve_right
    fun ⟨h, _⟩ => h neverFires_plainParser
  obtain ⟨-, -, t₂, -, -, -, h₂⟩ := @parse_of_neverFires plainParser stillWorld closedString 3
    rfl neverFires_plainParser
  have hdiffer : ((plainParser.parse stillWorld 0 openString none).1.toOption.bind fun t =>
      (plainParser.parse stillWorld 2 closedString (some (t.edit 1 quoted))).1.toOption).map
        Tree.findings ≠
      (plainParser.parse stillWorld 3 closedString none).1.toOption.map Tree.findings := by
    decide +kernel
  refine ⟨t₀, _, t₁, t₂, by rw [hp], hreplaced, by rw [h₁], by rw [h₂], fun hagrees => hdiffer ?_⟩
  rw [hp, h₂]
  show (plainParser.parse stillWorld 2 closedString (some (t₀.edit 1 quoted))).1.toOption.map
    Tree.findings = some t₂.findings
  rw [h₁, ← hagrees]
  rfl

end C

end Reparse
