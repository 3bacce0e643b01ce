import Reparse.Proofs.Encodings
import Reparse.Proofs.Resumption
import Reparse.Proofs.Transport
import Reparse.Proofs.Twins

/-!
# Texts in two encodings

The tree of a text does not depend on how the text is encoded, but for the bytes at which its nodes
stand. The characters of a text are numbered, and what is said of a document in either encoding is said of
the numbered characters first: their tokens (`tokens_ofChars`), the parts of the document
(`parts_ofChars`) and its places (`steady_ofChars`). The main statement is `parse_recoded`: the trees of
both documents are twins, node by node, and their nodes stand between the same characters and in the same
rows.
-/

namespace Reparse

open Decode (widthOf widthOf_nil widthOf_cons widthOf_append)

/-! ## Numbered characters -/

namespace Source

/-- The characters of a text that begins at `byte`. -/
def placed (byte : Nat) : List Decoded → List SourceChar
  | [] => []
  | d :: ds => ⟨d.char, byte, d.width, 0⟩ :: placed (byte + d.width) ds

/-- All characters of a text lie in the whole document. -/
lemma keepIncluded_document {byte : Nat} {ds : List Decoded} (hw : ∀ d ∈ ds, 0 < d.width)
    (h : byte + widthOf ds ≤ limit) : keepIncluded byte 0 [.document] ds = placed byte ds := by
  induction ds generalizing byte with
  | nil => rfl
  | cons d ds ih =>
    have hd := hw d (List.mem_cons_self ..)
    rw [widthOf_cons] at h
    have hpassed : [Span.document].takeWhile (fun r => r.stop.bytes ≤ byte) = [] :=
      List.takeWhile_cons_of_neg (by
        simp only [decide_eq_true_eq, Nat.not_le]
        show byte < limit
        omega)
    have hin : Span.document.containsByte byte = true := by
      rw [Span.containsByte_iff]
      refine ⟨Nat.zero_le _, ?_⟩
      show byte < limit
      omega
    rw [keepIncluded, hpassed]
    simp only [List.length_nil, List.drop_zero, hin, if_true, Nat.add_zero, placed]
    rw [ih (fun c hc => hw c (List.mem_cons_of_mem d hc)) (by omega)]

/-- A text ends where its last character does. -/
lemma stop_placed (byte : Nat) (ds : List Decoded) :
    ((placed byte ds).getLast?.map (·.stop)).getD byte = byte + widthOf ds := by
  induction ds generalizing byte with
  | nil => rfl
  | cons d ds ih =>
    have ih := ih (byte + d.width)
    rw [placed, List.getLast?_cons, widthOf_cons, ← Nat.add_assoc, ← ih]
    cases (placed (byte + d.width) ds).getLast? <;> rfl

/-- The characters of a text, each at its number and one wide. -/
def numbered (text : List Char) : List SourceChar := placed 0 (text.map (⟨·, 1⟩))

end Source

namespace Encoding

variable (e : Encoding) (text : List Char)

/-- A text is encoded into all of its bytes. -/
lemma offset_length : e.offset text text.length = (Document.ofChars e text).bytes.length := by
  rw [offset, List.take_length]
  rfl

/-- Later characters are encoded further on. -/
lemma offset_le {i j : Nat} (h : i ≤ j) : e.offset text i ≤ e.offset text j := by
  obtain ⟨k, rfl⟩ := Nat.exists_eq_add_of_le h
  rw [offset, offset, List.take_add, List.flatMap_append, List.length_append]
  exact Nat.le_add_right ..

/-- No character is encoded beyond the end. -/
lemma offset_le_size (i : Nat) : e.offset text i ≤ (Document.ofChars e text).bytes.length := by
  rw [← offset_length]
  rcases Nat.le_total i text.length with h | h
  · exact offset_le e text h
  · rw [offset, offset, List.take_of_length_le h, List.take_length]

/-- The next character begins after the bytes of the one before it. -/
lemma offset_succ (a b : List Char) (c : Char) :
    e.offset (a ++ c :: b) (a.length + 1) =
      e.offset (a ++ c :: b) a.length + (e.bytesOf c).length := by
  have htake : (a ++ c :: b).take (a.length + 1) = a ++ [c] := by
    rw [List.take_length_add_append]
    rfl
  rw [offset, htake, offset, List.take_left, List.flatMap_append, List.length_append,
    List.flatMap_singleton]

/-- A character has bytes. -/
lemma bytesOf_pos (c : Char) : 0 < (e.bytesOf c).length :=
  (Decode.width_of_first? (Decode.first?_bytesOf e c [])).1

/-- No text has more characters than bytes. -/
lemma length_le_size : text.length ≤ (Document.ofChars e text).bytes.length := by
  induction text with
  | nil => exact Nat.le_refl 0
  | cons c text ih =>
    have hc := e.bytesOf_pos c
    rw [Document.ofChars, List.flatMap_cons, List.length_cons, List.length_append]
    have ih : text.length ≤ (text.flatMap e.bytesOf).length := ih
    omega

/-- Decoded characters take all bytes of a document. -/
lemma widthOf_decode : widthOf (Document.ofChars e text).decode =
    (Document.ofChars e text).bytes.length := by
  rw [Document.decode_ofChars, Document.ofChars, List.length_flatMap, widthOf, List.map_map]
  rfl

/-- A numbered character where it stands in the document. -/
def place (c : SourceChar) : SourceChar :=
  { c with
    byte := e.offset text c.byte
    width := e.offset text c.stop - e.offset text c.byte }

/-- A character that is placed ends where the next one begins. -/
lemma stop_place (c : SourceChar) : (e.place text c).stop = e.offset text c.stop :=
  Nat.add_sub_cancel' (offset_le e text (Nat.le_add_right ..))

/-- The characters of a document are the numbered ones, where they stand. -/
lemma chars_ofChars (h : (Document.ofChars e text).bytes.length ≤ limit) :
    (Source.ofDocument (Document.ofChars e text) [.document]).chars =
      (Source.numbered text).map (e.place text) := by
  have hplaced : ∀ a b, text = a ++ b → Source.placed (e.offset text a.length)
      (b.map fun c => ⟨c, (e.bytesOf c).length⟩) =
      (Source.placed a.length (b.map (⟨·, 1⟩))).map (e.place text) := by
    intro a b hab
    induction b generalizing a with
    | nil => rfl
    | cons c b ih =>
      have hsucc := offset_succ e a b c
      rw [← hab] at hsucc
      have ih := ih (a ++ [c]) (by rw [hab, List.append_assoc]; rfl)
      rw [List.length_append, List.length_singleton, hsucc] at ih
      simp only [List.map_cons, Source.placed, ih]
      congr 1
      simp only [place, SourceChar.stop, hsucc, Nat.add_sub_cancel_left]
  show Source.keepIncluded 0 0 [.document] (Document.ofChars e text).decode = _
  rw [Source.keepIncluded_document (fun _ h => Document.width_pos h)
    (by rw [widthOf_decode, Nat.zero_add]; exact h), Document.decode_ofChars]
  exact hplaced [] text rfl

/-- The input of a document ends after its last character. -/
lemma endOfInput_ofChars (h : (Document.ofChars e text).bytes.length ≤ limit) :
    (Source.ofDocument (Document.ofChars e text) [.document]).endOfInput =
      e.offset text text.length := by
  have hchars : (Source.ofDocument (Document.ofChars e text) [.document]).chars =
      Source.placed 0 (Document.ofChars e text).decode :=
    Source.keepIncluded_document (fun _ h => Document.width_pos h)
      (by rw [widthOf_decode, Nat.zero_add]; exact h)
  rw [Source.endOfInput, hchars, Source.stop_placed, Nat.zero_add, widthOf_decode, offset_length]

/-! ## Places -/

/-- The place of a character in a document of a text. -/
def positionOf (i : Nat) : Length :=
  (Source.ofDocument (Document.ofChars e text) [.document]).positionAt (e.offset text i)

/-- The position of a character counts the bytes before it. -/
lemma bytes_positionOf (i : Nat) : (e.positionOf text i).bytes = e.offset text i :=
  (Source.coherent_positionAt _ _).bytes _

/-- A character begins after those that are decoded before it. -/
lemma offset_eq (i : Nat) :
    e.offset text i = widthOf ((Document.ofChars e text).decode.take i) := by
  rw [Document.decode_ofChars, ← List.map_take, offset, List.length_flatMap, widthOf, List.map_map]
  rfl

/-- The row of a character is the number of line feeds before it. -/
lemma row_positionOf (i : Nat) : (e.positionOf text i).extent.row = (text.take i).count '\n' := by
  have hrow := @Places.length_takeWhile_laterLines (Document.ofChars e text).decode
    (fun _ h => Document.width_pos h) 0 i
  rw [← offset_eq, Nat.zero_add, Document.decode_ofChars, ← List.map_take, List.countP_map] at hrow
  have hlines : (Source.ofDocument (Document.ofChars e text) [.document]).lineStarts =
      0 :: Source.laterLines 0 (text.map fun c => ⟨c, (e.bytesOf c).length⟩) := by
    rw [← Document.decode_ofChars]
    rfl
  rw [positionOf, Source.positionAt, Source.pointAt, hlines, List.takeWhile_cons_of_pos (by simp)]
  simp only [List.length_cons, hrow, Nat.add_sub_cancel]
  rfl

/-- The places of the characters of a document add up. -/
lemma steady_ofChars (h : (Document.ofChars e text).bytes.length ≤ limit) :
    Steady (e.positionOf text) text.length := by
  have hp := Source.coherent_positionAt (Document.ofChars e text) [.document]
  refine ⟨hp.zero, fun hxy _ => ?_, fun hxy _ => ?_⟩
  · rw [bytes_positionOf, bytes_positionOf]
    exact offset_le e text hxy
  · exact hp.step (offset_le e text hxy) (Nat.le_trans (offset_le_size e text _) h)

end Encoding

namespace C

open Item

/-! ## Tokens and parts -/

/-- A token without what was looked at to find it. -/
def Token.plain (t : Token) : Token := { t with lookahead := 0 }

/-- A token of numbered characters where it stands in the document. -/
def Token.placed (e : Encoding) (text : List Char) (t : Token) : Token :=
  ⟨t.kind, e.offset text t.start, e.offset text t.stop, 0⟩

/-- The source of numbered characters. -/
def numberedSource (text : List Char) : Source := ⟨⟨[], .utf8⟩, Source.numbered text, [], []⟩

variable (e : Encoding) {text : List Char}

/-- A token of characters that are placed is placed with them. -/
lemma token_place (kind : Terminal) (size : Nat) (c : SourceChar) (cs : List SourceChar) :
    (Lexer.token kind size (e.place text c) (cs.map (e.place text))).plain =
      (Lexer.token kind size c cs).placed e text := by
  have hlast : ∀ ds : List SourceChar, ((ds.map (e.place text)).getLast?.getD (e.place text c)).stop =
      e.offset text (ds.getLast?.getD c).stop := by
    intro ds
    rw [List.getLast?_map]
    cases ds.getLast? with
    | none => exact e.stop_place text c
    | some d => exact e.stop_place text d
  simp only [Lexer.token, Token.plain, Token.placed, ← List.map_take, hlast]
  rfl

/-- The tokens of a document are those of the numbered characters, where they stand. -/
lemma tokens_ofChars (h : (Document.ofChars e text).bytes.length ≤ limit) :
    (tokensFrom (Source.ofDocument (Document.ofChars e text) [.document]) 0).map Token.plain =
      (tokensFrom (numberedSource text) 0).map (Token.placed e text) := by
  rw [tokensFrom, tokensFrom, Source.charsFrom_zero, Source.charsFrom_zero, e.chars_ofChars text h]
  exact Lexer.lexAll_map (show Lexer.Keeps (e.place text) from fun _ => ⟨rfl, rfl⟩) (token_place e)
    .plain _

/-- The parts of a document are those of the numbered characters, where they stand. -/
lemma parts_ofChars (h : (Document.ofChars e text).bytes.length ≤ limit) {source : Source}
    (hsource : source = Source.ofDocument (Document.ofChars e text) [.document]) {s s₀ : State}
    {parts parts₀ : List Item} (hs : Steps source none (State.start source none) s)
    (hfinished : step source none s = .finished parts)
    (hs₀ : Steps (numberedSource text) none (State.start (numberedSource text) none) s₀)
    (hfinished₀ : step (numberedSource text) none s₀ = .finished parts₀) :
    mapAll Token.plain parts = mapAll (Token.placed e text) parts₀ := by
  subst hsource
  -- both are the parts of the tokens where they stand, of which no more is known than their places
  obtain ⟨s', parts', hs', hfinished'⟩ := exists_finished (numberedSource text)
    ⟨.empty, (tokensFrom (numberedSource text) 0).map (Token.placed e text)⟩
  have hplaced := finished_map (f := Token.placed e text) (fun _ => rfl) hs₀ hfinished₀ hs' hfinished'
  rw [← tokens_ofChars e h] at hs'
  have hplain := finished_map (f := Token.plain) (fun _ => rfl) hs hfinished hs' hfinished'
  exact hplain.symm.trans hplaced

mutual

/-- What is built of an item depends on the places at which its tokens stand. -/
lemma built_congr {f : Token → Token} {p q : Nat → Length} (hkind : ∀ t, (f t).kind = t.kind)
    (hstart : ∀ t, p (f t).start = q t.start) (hstop : ∀ t, p (f t).stop = q t.stop) :
    ∀ (position : Length) (i : Item), built p position (i.map f) = built q position i
  | _, .token _ t => by simp only [Item.map, built, hkind, hstart, hstop]
  | _, .missing _ _ => rfl
  | _, .reused _ => rfl
  | position, .node _ _ parts => by
    rw [Item.map, built, built, builtAll_congr hkind hstart hstop position parts]

/-- Items whose tokens have the same kinds and positions have the same trees. -/
lemma builtAll_congr {f : Token → Token} {p q : Nat → Length} (hkind : ∀ t, (f t).kind = t.kind)
    (hstart : ∀ t, p (f t).start = q t.start) (hstop : ∀ t, p (f t).stop = q t.stop) :
    ∀ (position : Length) (is : List Item), builtAll p position (mapAll f is) = builtAll q position is
  | _, [] => rfl
  | position, i :: rest => by
    rw [mapAll, builtAll_cons, builtAll_cons, built_congr hkind hstart hstop position i,
      builtAll_congr hkind hstart hstop _ rest]

end

/-- Documents whose tokens have the same kinds and positions have the same root. -/
lemma builtRoot_congr {f : Token → Token} {p q : Nat → Length} (hkind : ∀ t, (f t).kind = t.kind)
    (hstart : ∀ t, p (f t).start = q t.start) (hstop : ∀ t, p (f t).stop = q t.stop) (stop : Length)
    (items : List Item) : builtRoot p stop (mapAll f items) = builtRoot q stop items := by
  have hbuilt := built_congr hkind hstart hstop .zero (.node none .document items)
  rw [Item.map] at hbuilt
  rw [builtRoot, hbuilt, builtRoot]

/-! ## Trees -/

/-- The tree of a document is built of the parts of the numbered characters. -/
lemma root_ofChars {p : Parser Checkpoint} {outside : Outside} (generation : Nat)
    (h : (Document.ofChars e text).bytes.length ≤ limit) (hl : p.language = some language)
    (hranges : p.includedRanges = [.document])
    (hfresh : (p.task outside language (Document.ofChars e text) none).progress = none)
    (hq : NeverFires (p.probes outside) (.start p.timeout)) {s₀ : State} {parts₀ : List Item}
    (hs₀ : Steps (numberedSource text) none (State.start (numberedSource text) none) s₀)
    (hfinished₀ : step (numberedSource text) none s₀ = .finished parts₀) :
    ∃ tree, (p.parse outside generation (Document.ofChars e text) none).1 = .ok tree ∧
      tree.root.bare = builtRoot (e.positionOf text) (e.positionOf text text.length) parts₀ := by
  obtain ⟨s, parts, tree, hs, hfinished, ht, hp⟩ := parse_of_neverFires generation hl hq
  rw [hfresh] at hs
  have hparts := parts_ofChars e h (by rw [hranges]) hs hfinished hs₀ hfinished₀
  obtain ⟨-, -, hroot⟩ := of_treeOf ht
  refine ⟨tree, by rw [hp], ?_⟩
  have hplaced := builtRoot_congr (f := Token.placed e text)
    (p := (Source.ofDocument (Document.ofChars e text) [.document]).positionAt)
    (q := e.positionOf text) (fun _ => rfl) (fun _ => rfl) (fun _ => rfl)
  rw [hroot, hranges, e.endOfInput_ofChars text h, ← hplaced, ← hparts]
  exact (builtRoot_congr (f := Token.plain) (fun _ => rfl) (fun _ => rfl) (fun _ => rfl) _ _).symm

/-- The parts of the numbered characters are whole, and their tokens stand in order. -/
lemma whole_numbered {s₀ : State} {parts₀ : List Item} (h : text.length ≤ limit)
    (hs₀ : Steps (numberedSource text) none (State.start (numberedSource text) none) s₀)
    (hfinished₀ : step (numberedSource text) none s₀ = .finished parts₀) :
    WholeAll parts₀ ∧ InOrder 0 (tokensOf parts₀) text.length := by
  have hwidth : ∀ d ∈ text.map (fun c => (⟨c, 1⟩ : Decoded)), 0 < d.width := by
    intro d hd
    obtain ⟨c, -, rfl⟩ := List.mem_map.1 hd
    exact Nat.one_pos
  have hsize : widthOf (text.map fun c => (⟨c, 1⟩ : Decoded)) = text.length := by
    rw [widthOf, List.map_map, Function.comp_def, List.map_const', List.sum_replicate_nat, Nat.mul_one]
  have hchars := Source.ordered_keepIncluded hwidth 0 0 [.document]
  rw [Source.keepIncluded_document hwidth (by omega), hsize, Nat.zero_add] at hchars
  exact ((State.Faithful.start _).steps hs₀).parts hchars.1 hfinished₀ fun c hc => (hchars.2 c hc).2

end C

/-! ## Trees in both encodings -/

/-- Whether two places of documents in both encodings are before the same character of a text, in the same
row. -/
def SamePlace (text : List Char) (x y : Length) : Prop :=
  ∃ i ≤ text.length, x.bytes = Encoding.utf8.offset text i ∧ y.bytes = Encoding.utf16.offset text i ∧
    x.extent.row = (text.take i).count '\n' ∧ y.extent.row = (text.take i).count '\n'

/-- Whether walks find the same at two nodes, which stand between the same characters of a text. -/
structure Finding.Recoded (text : List Char) (f g : Finding) : Prop where
  depth : f.depth = g.depth
  field : f.field = g.field
  symbol : f.symbol = g.symbol
  childCount : f.childCount = g.childCount
  isNamed : f.isNamed = g.isNamed
  isMissing : f.isMissing = g.isMissing
  isExtra : f.isExtra = g.isExtra
  isError : f.isError = g.isError
  hasError : f.hasError = g.hasError
  hasChanges : f.hasChanges = g.hasChanges
  start : SamePlace text f.start g.start
  stop : SamePlace text f.stop g.stop

section

variable {text : List Char}

/-- The places of a character in both encodings are the same. -/
lemma samePlace_positionOf {x y : Length} (h : ∃ i ≤ text.length,
    x = Encoding.utf8.positionOf text i ∧ y = Encoding.utf16.positionOf text i) : SamePlace text x y := by
  obtain ⟨i, hi, rfl, rfl⟩ := h
  exact ⟨i, hi, Encoding.utf8.bytes_positionOf text i, Encoding.utf16.bytes_positionOf text i,
    Encoding.utf8.row_positionOf text i, Encoding.utf16.row_positionOf text i⟩

/-- Findings that stand between the same characters are those of a recoded text. -/
lemma Finding.Twins.recoded {f g : Finding}
    (h : Finding.Twins (Encoding.utf8.positionOf text) (Encoding.utf16.positionOf text) text.length f g) :
    Finding.Recoded text f g :=
  ⟨h.depth, h.field, h.symbol, h.childCount, h.isNamed, h.isMissing, h.isExtra, h.isError, h.hasError,
    h.hasChanges, samePlace_positionOf h.start, samePlace_positionOf h.stop⟩

/-- A text is read the same in both encodings: the walks over the two trees find the same at each node,
between the same characters and in the same rows. -/
theorem C.parse_recoded {p q : Parser Checkpoint} {outside outside' : Outside}
    (generation generation' : Nat)
    (hutf8 : (Document.ofChars .utf8 text).bytes.length ≤ limit)
    (hutf16 : (Document.ofChars .utf16 text).bytes.length ≤ limit)
    (hp : p.language = some language) (hq : q.language = some language)
    (hpranges : p.includedRanges = [.document]) (hqranges : q.includedRanges = [.document])
    (hpfresh : (p.task outside language (Document.ofChars .utf8 text) none).progress = none)
    (hqfresh : (q.task outside' language (Document.ofChars .utf16 text) none).progress = none)
    (hpcalm : NeverFires (p.probes outside) (.start p.timeout))
    (hqcalm : NeverFires (q.probes outside') (.start q.timeout)) :
    ∃ t u, (p.parse outside generation (Document.ofChars .utf8 text) none).1 = .ok t ∧
      (q.parse outside' generation' (Document.ofChars .utf16 text) none).1 = .ok u ∧
      List.Forall₂ (Finding.Recoded text) t.findings u.findings := by
  obtain ⟨s₀, parts₀, hs₀, hfinished₀⟩ :=
    exists_finished (numberedSource text) (State.start (numberedSource text) none)
  obtain ⟨t, ht, hroot⟩ := root_ofChars .utf8 generation hutf8 hp hpranges hpfresh hpcalm hs₀ hfinished₀
  obtain ⟨u, hu, hroot'⟩ :=
    root_ofChars .utf16 generation' hutf16 hq hqranges hqfresh hqcalm hs₀ hfinished₀
  have hsize : text.length ≤ limit := Nat.le_trans (Encoding.utf8.length_le_size text) hutf8
  obtain ⟨hwhole, horder⟩ := whole_numbered hsize hs₀ hfinished₀
  have htwins := Item.findings_of_builtRoot (Encoding.utf8.steady_ofChars text hutf8)
    (Encoding.utf16.steady_ofChars text hutf16) hwhole horder hroot hroot'
  exact ⟨t, u, ht, hu, htwins.imp fun _ _ h => Finding.Twins.recoded h⟩

/-- A line of letters that take two, three and four bytes, and an expression after it. -/
def lettersText : List Char := ['é', '€', '😀', '\n', 'x', ';']

/-- Letters of several widths, in both encodings. -/
theorem C.parse_recoded_letters :
    ∃ t u, (plainParser.parse stillWorld 0 (Document.ofChars .utf8 lettersText) none).1 = .ok t ∧
      (plainParser.parse stillWorld 1 (Document.ofChars .utf16 lettersText) none).1 = .ok u ∧
      List.Forall₂ (Finding.Recoded lettersText) t.findings u.findings :=
  parse_recoded 0 1 (by decide) (by decide) rfl rfl rfl rfl rfl rfl neverFires_plainParser
    neverFires_plainParser

end

end Reparse
