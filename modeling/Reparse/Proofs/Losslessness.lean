import Reparse.Proofs.Differences
import Reparse.Proofs.Transcripts

/-!
# Losslessness

The leaves of a tree that a call gives cut up the included characters of its document, its nodes
nest, and their coordinates are those of the document (`Lossless`), whatever the parser was used for
before and whatever it took over from an old tree (`parseBy_lossless`). A root without children is a leaf,
too. It stands for a document of blanks and reaches from its start to the end of the input, also over text
that is not included (`parseBy_lossless_blanks`).
-/

namespace Reparse

/-! ## Characters of one range -/

/-- Whether characters lie side by side from one byte to another. -/
def Spanned : Nat → List SourceChar → Nat → Prop
  | x, [], y => x = y
  | x, c :: cs, y => c.byte = x ∧ Spanned c.stop cs y

/-- A stretch of characters is as wide as they are together. -/
lemma Spanned.eq_add {x y : Nat} {cs : List SourceChar} (h : Spanned x cs y) :
    y = x + (cs.map (·.width)).sum := by
  induction cs generalizing x with
  | nil => exact h.symm
  | cons c cs ih =>
    obtain ⟨rfl, hrest⟩ := h
    rw [ih hrest, List.map_cons, List.sum_cons, ← Nat.add_assoc]
    rfl

namespace Source

/-- The number of the range that holds a byte is the number of the ranges that end before it. -/
lemma rangeAt_eq_some {ranges : List Span} {x r : Nat} : rangeAt ranges x = some r ↔
    (ranges.takeWhile fun s => s.stop.bytes ≤ x).length = r ∧
      ∃ s ∈ ranges[r]?, s.containsByte x = true := by
  rw [rangeAt, Option.bind_eq_some_iff]
  simp only [List.head?_drop]
  constructor
  · rintro ⟨s, hs, h⟩
    split at h
    · obtain rfl := Option.some.inj h
      exact ⟨rfl, s, hs, ‹_›⟩
    · cases h
  · rintro ⟨rfl, s, hs, hc⟩
    exact ⟨s, hs, if_pos hc⟩

/-- At a later byte no fewer ranges have ended. -/
lemma length_takeWhile_mono (ranges : List Span) {x y : Nat} (h : x ≤ y) :
    (ranges.takeWhile fun s => s.stop.bytes ≤ x).length ≤
      (ranges.takeWhile fun s => s.stop.bytes ≤ y).length := by
  induction ranges with
  | nil => exact Nat.le_refl _
  | cons s ranges ih =>
    rw [List.takeWhile_cons, List.takeWhile_cons]
    by_cases hs : s.stop.bytes ≤ x
    · rw [if_pos (by simpa using hs), if_pos (by simpa using Nat.le_trans hs h)]
      exact Nat.succ_le_succ ih
    · rw [if_neg (by simpa using hs)]
      exact Nat.zero_le _

/-- Bytes between two bytes of one range are of that range. -/
lemma rangeAt_convex {ranges : List Span} {x y z r : Nat} (hx : rangeAt ranges x = some r)
    (hz : rangeAt ranges z = some r) (hxy : x ≤ y) (hyz : y ≤ z) : rangeAt ranges y = some r := by
  rw [rangeAt_eq_some] at hx hz ⊢
  obtain ⟨hx, s, hs, hsx⟩ := hx
  obtain ⟨hz, s', hs', hsz⟩ := hz
  obtain rfl := Option.some.inj (hs.symm.trans hs')
  have h1 := length_takeWhile_mono ranges hxy
  have h2 := length_takeWhile_mono ranges hyz
  refine ⟨by omega, s, hs, ?_⟩
  rw [Span.containsByte_iff] at hsx hsz ⊢
  omega

/-- Neighbours of one range lie side by side. -/
lemma byte_eq_stop {f : Nat → Option Nat} (hf : ∀ {x y z r}, f x = some r → f z = some r → x ≤ y →
      y ≤ z → f y = some r) {ds : List Decoded} (hw : ∀ d ∈ ds, 0 < d.width) {byte : Nat}
    {a b : List SourceChar} {c d : SourceChar} (h : charsIn f byte ds = a ++ c :: d :: b)
    (hr : c.range = d.range) : d.byte = c.stop := by
  induction ds generalizing byte a with
  | nil => simp [charsIn] at h
  | cons e ds ih =>
    have hds : ∀ d ∈ ds, 0 < d.width := fun d hd => hw d (List.mem_cons_of_mem e hd)
    rw [charsIn] at h
    cases he : f byte with
    | none =>
      rw [he] at h
      exact ih hds h
    | some r =>
      rw [he] at h
      cases a with
      | cons a₀ a => exact ih hds (List.cons.inj h).2
      | nil =>
        obtain ⟨rfl, hrest⟩ := List.cons.inj h
        -- the byte after the first character lies between two bytes of one range
        have hmem : d ∈ charsIn f (byte + e.width) ds := by
          rw [show charsIn f (byte + e.width) ds = d :: b from hrest]
          exact List.mem_cons_self ..
        obtain ⟨-, -, -, -, -, -, -, hd⟩ := exists_of_mem_charsIn hmem
        have hle := (le_byte_of_mem_charsIn hds hmem).1
        have hr' : r = d.range := hr
        rw [← hr'] at hd
        have hnext := hf he hd (Nat.le_add_right byte e.width) hle
        cases ds with
        | nil => cases hmem
        | cons e' ds =>
          rw [charsIn, hnext] at hrest
          obtain ⟨rfl, -⟩ := List.cons.inj hrest
          rfl

/-- Characters of a document in a row that are of one range lie side by side. -/
lemma spanned_of_chars {d : Document} {ranges : List Span} {a cs b : List SourceChar} {c : SourceChar}
    (h : (ofDocument d ranges).chars = a ++ (c :: cs) ++ b)
    (hr : ∀ d ∈ c :: cs, d.range = c.range) {last : SourceChar}
    (hl : (c :: cs).getLast? = some last) : Spanned c.byte (c :: cs) last.stop := by
  have hw : ∀ e ∈ d.decode, 0 < e.width := fun _ he => Document.width_pos he
  refine ⟨rfl, ?_⟩
  induction cs generalizing a c with
  | nil =>
    obtain rfl := Option.some.inj hl
    rfl
  | cons e cs ih =>
    have he := hr e (List.mem_cons_of_mem c (List.mem_cons_self ..))
    rw [chars_eq, List.append_assoc] at h
    have hbyte : e.byte = c.stop := byte_eq_stop rangeAt_convex hw h he.symm
    rw [← chars_eq] at h
    refine ⟨hbyte, ih (a := a ++ [c]) (by rw [h]; simp) (fun d hd => ?_) (by simpa using hl)⟩
    rw [hr d (List.mem_cons_of_mem c hd), he]

/-- A character of a document is of the range with its number. -/
lemma exists_range {d : Document} {ranges : List Span} {c : SourceChar}
    (h : c ∈ (ofDocument d ranges).chars) :
    ∃ range ∈ (ofDocument d ranges).ranges[c.range]?, range.containsByte c.byte = true := by
  rw [chars_eq] at h
  obtain ⟨-, -, -, -, -, -, -, hat⟩ := exists_of_mem_charsIn h
  exact (rangeAt_eq_some.1 hat).2

/-- Where the ranges are no more than the numbers of 32 bits, the tag of a character is the number of its
range. -/
lemma tag_eq {d : Document} {ranges : List Span} {c : SourceChar} (h : c ∈ (ofDocument d ranges).chars)
    (hranges : ranges.length ≤ limit + 1) : c.tag = c.range := by
  obtain ⟨range, hrange, -⟩ := exists_range h
  have hlt := (List.getElem?_eq_some_iff.1 hrange).1
  have hlength : (ofDocument d ranges).ranges.length ≤ limit + 1 := by
    show (effectiveRanges ranges).length ≤ limit + 1
    unfold effectiveRanges
    split
    · decide
    · exact hranges
  exact Nat.mod_eq_of_lt (Nat.lt_of_lt_of_le hlt hlength)

end Source

/-! ## Tokens and their characters -/

namespace C

open Item

/-- A character that is no blank is of one of the tokens that cut up the characters. -/
lemma Covers.exists_token {cs rest : List SourceChar} {ts : List Token} (h : Covers cs ts rest)
    (ho : Ordered cs) (hb : AllBlank rest) {c : SourceChar} (hc : c ∈ cs)
    (hn : Text.isBlank c.char = false) : ∃ t ∈ ts, t.start ≤ c.byte ∧ c.stop ≤ t.stop := by
  induction h with
  | nil =>
    have hblank := hb c hc
    rw [hn] at hblank
    cases hblank
  | @cons blanks piece cs t ts rest hblanks hs _ ih =>
    rcases List.mem_append.1 hc with hc | hc
    · rcases List.mem_append.1 hc with hc | hc
      · have hblank := hblanks c hc
        rw [hn] at hblank
        cases hblank
      · refine ⟨t, List.mem_cons_self .., ?_, ?_⟩
        · obtain ⟨first, hfirst, hstart⟩ := Option.map_eq_some_iff.1 hs.start
          obtain ⟨piece', rfl⟩ := List.head?_eq_some_iff.1 hfirst
          rw [← hstart]
          have ho' := ho.append.1.append.2
          rcases List.mem_cons.1 hc with rfl | hc
          · exact Nat.le_refl _
          · have hlt := SourceChar.byte_lt_stop (ho'.width first (List.mem_cons_self ..))
            have hle := (List.pairwise_cons.1 ho'.apart).1 c hc
            omega
        · obtain ⟨last, hlast, hstop⟩ := Option.map_eq_some_iff.1 hs.stop
          rw [← hstop]
          exact ho.append.1.append.2.stop_le_getLast hc hlast
    · obtain ⟨u, hu, hin⟩ := ih ho.append.2 hb hc
      exact ⟨u, List.mem_cons_of_mem t hu, hin⟩

/-- A token is the stretch of some of the characters that are cut up. -/
lemma Covers.exists_piece {cs rest : List SourceChar} {ts : List Token} (h : Covers cs ts rest)
    {t : Token} (ht : t ∈ ts) : ∃ a piece b, cs = a ++ piece ++ b ∧ t.Spans piece := by
  induction h with
  | nil => cases ht
  | @cons blanks piece cs u ts rest _ hs _ ih =>
    rcases List.mem_cons.1 ht with rfl | ht
    · exact ⟨blanks, piece, cs, rfl, hs⟩
    · obtain ⟨a, piece', b, rfl, hs'⟩ := ih ht
      exact ⟨blanks ++ piece ++ a, piece', b, by simp, hs'⟩

end C

/-! ## Trees that lose nothing -/

/-- Whether a node consists of characters of one range: they lie side by side from its start to its stop,
the range holds the first byte of each of them, and they are tagged with its number. -/
def Node.OfOneRange (source : Source) (n : Node) : Prop :=
  ∃ i, ∃ range ∈ source.ranges[i]?, ∃ a cs b, source.chars = a ++ cs ++ b ∧
    Spanned n.startByte cs n.stopByte ∧ ∀ c ∈ cs, c.tag = i ∧ range.containsByte c.byte = true

/-- Whether a tree stands in a source. Its nodes nest: those with children, the root apart, are as wide as
their children are together, and the root ends where the input does. All nodes have the coordinates that the
source gives to their bytes. -/
structure Tree.Situated (source : Source) (t : Tree) : Prop where
  nested : t.rootNode.Nested
  filled : ∀ n ∈ t.rootNode.inner, n.children ≠ [] →
    n.children.head?.map (·.start) = some n.start ∧ n.children.getLast?.map (·.stop) = some n.stop
  stop : t.rootNode.stop = source.positionAt source.endOfInput
  coordinates : ∀ n ∈ t.rootNode.below,
    n.start = source.positionAt n.startByte ∧ n.stop = source.positionAt n.stopByte

/-- Whether a tree holds the source in which it stands without loss. Its leaves stand in order and apart,
and every included character that is no blank is held by exactly one of those that are not missing. Each of
these has characters and consists of those of one range, unless it is the root: a root without children
starts where the document does, and has nothing but blanks in it. -/
structure Lossless (source : Source) (t : Tree) : Prop extends t.Situated source where
  held : ∀ c ∈ source.chars, Text.isBlank c.char = false → ∃ n,
    (t.rootNode.leaves.filter fun n => !n.isMissing && n.startByte < c.stop && c.byte < n.stopByte) =
        [n] ∧ n.startByte ≤ c.byte ∧ c.stop ≤ n.stopByte
  apart : t.rootNode.leaves.Pairwise fun n m => n.stopByte ≤ m.startByte
  spanned : t.rootNode.childCount ≠ 0 → ∀ n ∈ t.rootNode.leaves, n.isMissing = false →
    n.startByte < n.stopByte ∧ n.OfOneRange source
  blank : t.rootNode.childCount = 0 →
    t.rootNode.startByte = 0 ∧ ∀ c ∈ source.chars, Text.isBlank c.char = true

/-- Of intervals in order, at most one meets a stretch that one of them holds. -/
lemma filter_eq_singleton {ns : List Node} {n : Node} {x y : Nat}
    (h : ns.Pairwise fun n m => n.stopByte ≤ m.startByte) (hn : n ∈ ns) (hx : n.startByte ≤ x)
    (hxy : x < y) (hy : y ≤ n.stopByte) (hm : n.isMissing = false) :
    (ns.filter fun n => !n.isMissing && n.startByte < y && x < n.stopByte) = [n] := by
  obtain ⟨a, b, rfl⟩ := List.append_of_mem hn
  obtain ⟨-, hb, hab⟩ := List.pairwise_append.1 h
  have ha : ∀ m ∈ a, ¬ (!m.isMissing && m.startByte < y && x < m.stopByte) = true := fun m hm => by
    have hle := hab m hm n (List.mem_cons_self ..)
    simp only [Bool.and_eq_true, decide_eq_true_eq, not_and]
    intro _
    omega
  have hb' : ∀ m ∈ b, ¬ (!m.isMissing && m.startByte < y && x < m.stopByte) = true := fun m hm => by
    have hle := (List.pairwise_cons.1 hb).1 m hm
    simp only [Bool.and_eq_true, decide_eq_true_eq, not_and, and_imp]
    intro _ _
    omega
  have hkeep : (!n.isMissing && decide (n.startByte < y) && decide (x < n.stopByte)) = true := by
    rw [hm, decide_eq_true (show n.startByte < y by omega),
      decide_eq_true (show x < n.stopByte by omega)]
    rfl
  rw [List.filter_append, List.filter_eq_nil_iff.2 ha, List.filter_cons, if_pos hkeep,
    List.filter_eq_nil_iff.2 hb', List.nil_append]

/-! ## Nodes that nest -/

section

variable {place : Nat → Length} {bound : Nat} (hp : Coherent place bound)

/-- The first child of a node starts where the node does. -/
lemma Node.start_head_children (n : Node) : ∀ c ∈ n.children.head?, c.start = n.start := by
  obtain ⟨t, ⟨l, cs⟩, start⟩ := n
  cases cs with
  | nil =>
    intro m hm
    cases hm
  | cons c cs =>
    intro m hm
    obtain rfl : ⟨t, c.node, start⟩ = m := Option.some.inj hm
    rfl

include hp

/-- Children that follow one another stand in order, apart, and after the start of their parent. -/
lemma Standing.inside {n : Node} {x y : Nat} (h : Standing place x n.children y) (hy : y ≤ bound) :
    (n.children.Pairwise fun a b => a.stopByte ≤ b.startByte) ∧
      ∀ c ∈ n.children, n.startByte ≤ c.startByte ∧ c.startByte ≤ c.stopByte ∧ c.stopByte ≤ y := by
  have hpairwise := h.pairwise hp hy
  refine ⟨hpairwise, fun c hc => ?_⟩
  obtain ⟨-, -, hle, hstop⟩ := h.placed hp hy c hc
  refine ⟨?_, hle, hstop⟩
  have hhead := n.start_head_children
  have hplaced := h.placed hp hy
  generalize n.children = cs at hc hpairwise hhead hplaced
  cases cs with
  | nil => cases hc
  | cons first cs =>
    have hfirst : first.startByte = n.startByte := by
      rw [Node.startByte, Node.startByte, hhead first rfl]
    rcases List.mem_cons.1 hc with rfl | hc
    · exact Nat.le_of_eq hfirst.symm
    · have h1 := (List.pairwise_cons.1 hpairwise).1 c hc
      have h2 := (hplaced first (List.mem_cons_self ..)).2.2.1
      omega

/-- The children of a placed node stand in order, apart and inside it, and fill it. -/
lemma Node.Placed.filled {n : Node} (h : n.Placed place bound) :
    ((n.children.Pairwise fun a b => a.stopByte ≤ b.startByte) ∧
      ∀ c ∈ n.children, n.startByte ≤ c.startByte ∧ c.startByte ≤ c.stopByte ∧
        c.stopByte ≤ n.stopByte) ∧
    (n.children ≠ [] → n.children.head?.map (·.start) = some n.start ∧
      n.children.getLast?.map (·.stop) = some n.stop) := by
  obtain ⟨x, a, y, hl, hs, hy⟩ := h
  by_cases hne : n.children = []
  · rw [hne]
    exact ⟨⟨List.Pairwise.nil, fun _ hc => absurd hc List.not_mem_nil⟩, fun h => absurd rfl h⟩
  · obtain ⟨hstanding, hhead⟩ := hl.standing hp hs hy hne
    have hstop : n.stop = place y := hl.stop_eq hp hs hy
    have hbyte : n.stopByte = y := by rw [Node.stopByte, hstop, hp.bytes]
    refine ⟨?_, fun _ => ⟨hhead, ?_⟩⟩
    · rw [hbyte]
      exact hstanding.inside hp hy
    · rw [hstop]
      exact hstanding.getLast hp hy hne

/-- The nodes at and below a placed node are placed. -/
lemma Node.Placed.below {n m : Node} (h : n.Placed place bound) (hm : m ∈ n.below) :
    m.Placed place bound := by
  obtain ⟨v, hv, rfl⟩ := List.mem_map.1 hm
  exact h.visits hp hv

end

namespace C

open Item

/-- A leaf that stands for text is made of a token. -/
lemma exists_token_of_leaf {ns : List Node} {ts : List Token}
    (h : wordsOf ns = ts.map Token.word) {n : Node} (hn : n ∈ ns) (hm : n.isMissing = false) :
    ∃ u ∈ ts, n.startByte = u.start ∧ n.stopByte = u.stop := by
  have hword : (n.symbol, n.startByte, n.stopByte) ∈ wordsOf ns :=
    List.mem_map.2 ⟨n, List.mem_filter.2 ⟨hn, by rw [hm]; rfl⟩, rfl⟩
  rw [h] at hword
  obtain ⟨u, hu, heq⟩ := List.mem_map.1 hword
  simp only [Token.word, Prod.mk.injEq] at heq
  exact ⟨u, hu, heq.2.1.symm, heq.2.2.symm⟩

/-- Every token makes a leaf. -/
lemma exists_leaf_of_token {ns : List Node} {ts : List Token} (h : wordsOf ns = ts.map Token.word)
    {u : Token} (hu : u ∈ ts) :
    ∃ n ∈ ns, n.isMissing = false ∧ n.startByte = u.start ∧ n.stopByte = u.stop := by
  have hword : u.word ∈ wordsOf ns := by
    rw [h]
    exact List.mem_map_of_mem hu
  obtain ⟨n, hn, heq⟩ := List.mem_map.1 hword
  obtain ⟨hn, hm⟩ := List.mem_filter.1 hn
  simp only [Token.word, Prod.mk.injEq] at heq
  exact ⟨n, hn, by simpa using hm, heq.2.1, heq.2.2⟩

/-- What is built of tokens that stand in a source stands in it. -/
theorem situated_of_built {d : Document} {ranges : List Span} {t : Tree} {items : List Item}
    (hd : d.bytes.length ≤ limit) (hw : WholeAll items)
    (horder : InOrder 0 (tokensOf items) (Source.ofDocument d ranges).endOfInput)
    (ht : t.root.bare = builtRoot (Source.ofDocument d ranges).positionAt
      ((Source.ofDocument d ranges).positionAt (Source.ofDocument d ranges).endOfInput) items) :
    t.Situated (.ofDocument d ranges) := by
  have hp := Source.coherent_positionAt d ranges
  have hend := Source.endOfInput_le_limit hd ranges
  obtain ⟨⟨a, hstart, ha⟩, hstop, hstanding, -⟩ := root_of_built hp hw horder hend ht
  have hlast := Nat.le_trans horder.le.2 hend
  have hinner : ∀ n ∈ t.rootNode.inner, n.Placed (Source.ofDocument d ranges).positionAt limit :=
    fun n hn => by
      obtain ⟨c, hc, hn⟩ := List.mem_flatMap.1 hn
      exact (hstanding.placed hp hlast c hc).1.below hp hn
  refine ⟨fun n hn => ?_, fun n hn hne => ((hinner n hn).filled hp).2 hne, hstop, fun n hn => ?_⟩
  · rw [Node.below_eq_inner] at hn
    rcases List.mem_cons.1 hn with rfl | hn
    · obtain ⟨hpairwise, hinside⟩ := hstanding.inside hp hlast
      refine ⟨hpairwise, fun c hc => ?_⟩
      obtain ⟨h1, h2, h3⟩ := hinside c hc
      have hbyte : t.rootNode.stopByte = (Source.ofDocument d ranges).endOfInput := by
        rw [Node.stopByte, hstop, hp.bytes]
      rw [hbyte]
      exact ⟨h1, h2, Nat.le_trans h3 horder.le.2⟩
    · exact ((hinner n hn).filled hp).1
  · rw [Node.below_eq_inner] at hn
    rcases List.mem_cons.1 hn with rfl | hn
    · rw [Node.startByte, Node.stopByte, hstart, hstop, hp.bytes, hp.bytes]
      exact ⟨rfl, rfl⟩
    · exact (hinner n hn).ends hp

/-- A token that is cut out of a source consists of characters of one range, as does a leaf in its place. -/
lemma Covers.ofOneRange {d : Document} {ranges : List Span} {ts : List Token} {blanks : List SourceChar}
    (h : Covers (Source.ofDocument d ranges).chars ts blanks) (hranges : ranges.length ≤ limit + 1)
    {u : Token} (hu : u ∈ ts) {n : Node} (hstart : n.startByte = u.start) (hstop : n.stopByte = u.stop) :
    n.startByte < n.stopByte ∧ n.OfOneRange (.ofDocument d ranges) := by
  obtain ⟨a, piece, b, hchars, hs⟩ := h.exists_piece hu
  obtain ⟨first, hfirst, hstart'⟩ := Option.map_eq_some_iff.1 hs.start
  obtain ⟨last, hlast, hstop'⟩ := Option.map_eq_some_iff.1 hs.stop
  obtain ⟨piece', rfl⟩ := List.head?_eq_some_iff.1 hfirst
  have hmem : ∀ c ∈ first :: piece', c ∈ (Source.ofDocument d ranges).chars := fun c hc => by
    rw [hchars]
    exact List.mem_append_left _ (List.mem_append_right _ hc)
  have hrange : ∀ c ∈ first :: piece', c.range = first.range :=
    fun c hc => hs.range c hc first (List.mem_cons_self ..)
  have hspanned := Source.spanned_of_chars hchars hrange hlast
  obtain ⟨range, hat, -⟩ := Source.exists_range (hmem first (List.mem_cons_self ..))
  rw [hstart, hstop, ← hstart', ← hstop']
  refine ⟨?_, first.range, range, hat, a, first :: piece', b, hchars, ?_, fun c hc => ⟨?_, ?_⟩⟩
  · have hpos := (Source.ordered_chars d ranges).width first (hmem first (List.mem_cons_self ..))
    rw [hspanned.eq_add, List.map_cons, List.sum_cons]
    omega
  · rw [hstart, hstop, ← hstart', ← hstop']
    exact hspanned
  · rw [Source.tag_eq (hmem c hc) hranges, hrange c hc]
  · obtain ⟨range', hat', hin⟩ := Source.exists_range (hmem c hc)
    rw [hrange c hc] at hat'
    rwa [Option.some.inj (hat.symm.trans hat')]

/-- What is built of tokens that cut up a source holds it without loss. -/
theorem lossless_of_built {d : Document} {ranges : List Span} {t : Tree} {items : List Item}
    {blanks : List SourceChar} (hd : d.bytes.length ≤ limit) (hranges : ranges.length ≤ limit + 1)
    (hw : WholeAll items) (hc : Covers (Source.ofDocument d ranges).chars (tokensOf items) blanks)
    (hb : AllBlank blanks)
    (ht : t.root.bare = builtRoot (Source.ofDocument d ranges).positionAt
      ((Source.ofDocument d ranges).positionAt (Source.ofDocument d ranges).endOfInput) items) :
    Lossless (.ofDocument d ranges) t := by
  have ho := Source.ordered_chars d ranges
  have hp := Source.coherent_positionAt d ranges
  have hend := Source.endOfInput_le_limit hd ranges
  have horder := hc.inOrder ho (fun _ _ => Nat.zero_le _) (Nat.zero_le _)
    fun c hc => Source.stop_le_endOfInput ho hc
  have hwords := words_of_built hp hw horder hend ht
  have hsituated := situated_of_built hd hw horder ht
  obtain ⟨-, -, hstanding, hmap⟩ := root_of_built hp hw horder hend ht
  by_cases hcount : t.rootNode.childCount = 0
  · -- without children there are no tokens, so all characters are blanks
    have hnil : t.rootNode.children = [] :=
      List.eq_nil_of_length_eq_zero ((Node.length_children _).trans hcount)
    rw [hnil] at hwords hmap
    have hblank : ∀ c ∈ (Source.ofDocument d ranges).chars, Text.isBlank c.char = true := by
      rw [List.map_eq_nil_iff.1 hwords.symm] at hc
      rwa [← hc.eq_of_nil]
    refine ⟨hsituated, fun c hc hn => ?_, ?_, fun h => absurd hcount h, fun _ => ⟨?_, hblank⟩⟩
    · rw [hblank c hc] at hn
      cases hn
    · rw [Node.leaves_of_eq hcount]
      exact List.pairwise_singleton _ _
    · have hpadding := (label_builtRoot (Source.ofDocument d ranges).positionAt
        ((Source.ofDocument d ranges).positionAt (Source.ofDocument d ranges).endOfInput) items).1
      rw [← ht, Green.label_bare, ← hp.zero, List.map_eq_nil_iff.1 hmap.symm] at hpadding
      rw [Node.startByte, show t.rootNode.start = t.root.label.padding from rfl]
      exact (congrArg Length.bytes hpadding).trans (hp.bytes 0)
  · rw [← Node.leaves_of_ne hcount] at hwords
    have hapart : t.rootNode.leaves.Pairwise fun n m => n.stopByte ≤ m.startByte := by
      rw [Node.leaves_of_ne hcount]
      exact (hstanding.leaves hp (Nat.le_trans horder.le.2 hend)).1
    refine ⟨hsituated, fun c hcmem hn => ?_, hapart, fun _ n hn hm => ?_, fun h => absurd h hcount⟩
    · obtain ⟨u, hu, hustart, hustop⟩ := hc.exists_token ho hb hcmem hn
      obtain ⟨n, hn, hm, hnstart, hnstop⟩ := exists_leaf_of_token hwords hu
      have hlt := SourceChar.byte_lt_stop (ho.width c hcmem)
      exact ⟨n, filter_eq_singleton hapart hn (by omega) hlt (by omega) hm, by omega, by omega⟩
    · obtain ⟨u, hu, hnstart, hnstop⟩ := exists_token_of_leaf hwords hn hm
      exact hc.ofOneRange hranges hu hnstart hnstop

section

variable {p q : Parser Checkpoint} {d : Document} {oldTree : Option Tree} {outside : Outside}
  {generation : Nat} {t : Tree}

/-- The tree of a call stands in its document. -/
lemma parse_situated (h : Used False p) (hold : ∀ t ∈ oldTree, Matches False d t)
    (hd : d.bytes.length ≤ limit) (hp : p.parse outside generation d oldTree = (.ok t, q)) :
    t.Situated (.ofDocument d p.includedRanges) := by
  obtain ⟨e, items, hbuilds⟩ := h.builds hold hd (fun hf => hf.elim) hp
  obtain ⟨blanks, hc, -⟩ := hbuilds.covers
  have ho := Source.ordered_chars d p.includedRanges
  exact situated_of_built hd hbuilds.whole (hc.inOrder ho (fun _ _ => Nat.zero_le _) (Nat.zero_le _)
    fun c hc => Source.stop_le_endOfInput ho hc) hbuilds.root

/-- The tree of a call holds its document without loss. -/
lemma parse_lossless (h : Used False p) (hold : ∀ t ∈ oldTree, Matches False d t)
    (hd : d.bytes.length ≤ limit) (hranges : p.includedRanges.length ≤ limit + 1)
    (hp : p.parse outside generation d oldTree = (.ok t, q)) :
    Lossless (.ofDocument d p.includedRanges) t := by
  obtain ⟨e, items, hbuilds⟩ := h.builds hold hd (fun hf => hf.elim) hp
  obtain ⟨blanks, hc, hb⟩ := hbuilds.covers
  exact lossless_of_built hd hranges hbuilds.whole hc hb hbuilds.root

end

section

variable {κ : Type} [DecidableEq κ] {fingerprint : Document → List Span → κ} {p q : Parser Suspension}
  {d : Document} {oldTree : Option Tree} {outside : Outside} {generation : Nat} {t : Tree}

/-- Every call of a parser of C that gives a tree gives one that holds the document without loss,
whatever calls came before it, how often these were halted, and from which old trees, edited to match
their documents, parts were taken over, where the calls could rely on the numbers of their events and on
fingerprints, and there are no more ranges than numbers for them. -/
theorem parseBy_lossless (h : UsedBy fingerprint p) (hold : ∀ t ∈ oldTree, MatchesBy fingerprint d t)
    (hd : d.bytes.length ≤ limit) (hranges : p.includedRanges.length ≤ limit + 1)
    (hrelies : Relies fingerprint p outside generation d oldTree)
    (hp : p.parseBy fingerprint outside generation d oldTree = (.ok t, q)) :
    Lossless (.ofDocument d p.includedRanges) t := by
  obtain ⟨r, hr, hused⟩ := h.exists_used
  obtain ⟨r', hcall, -⟩ := hr.parse hrelies hp
  have hlossless := parse_lossless hused (fun t ht => (hold t ht).matches) hd (by rwa [hr.ranges]) hcall
  rwa [hr.ranges] at hlossless

end

/-- The tree of `x;` holds it without loss. -/
theorem parseBy_lossless_statement :
    UsedBy Prod.mk plainNotedParser ∧ ∃ t q,
      plainNotedParser.parseBy Prod.mk stillWorld 0 ⟨[120, 59], .utf8⟩ none = (.ok t, q) ∧
        t.rootNode.leaves.map (fun n => (n.startByte, n.stopByte)) = [(0, 1), (1, 2)] ∧
        Lossless (.ofDocument ⟨[120, 59], .utf8⟩ [.document]) t := by
  have hused : UsedBy Prod.mk plainNotedParser := .new rfl rfl
  have hleaves : (plainNotedParser.parseBy Prod.mk stillWorld 0 ⟨[120, 59], .utf8⟩ none).1.toOption.map
      (fun t => t.rootNode.leaves.map fun n => (n.startByte, n.stopByte)) = some [(0, 1), (1, 2)] := by
    decide +kernel
  obtain ⟨result, q, hp⟩ : ∃ result q,
      plainNotedParser.parseBy Prod.mk stillWorld 0 ⟨[120, 59], .utf8⟩ none = (result, q) := ⟨_, _, rfl⟩
  rw [hp] at hleaves
  cases result with
  | error e => cases hleaves
  | ok t => exact ⟨hused, t, q, hp, Option.some.inj hleaves, parseBy_lossless hused (fun _ ht => by cases ht)
      (by decide) (by decide) ⟨by decide +kernel, fun _ hc => by cases hc⟩ hp⟩

/-- A parser of C that leaves out the second of three bytes. -/
def partingParser : Parser Suspension :=
  { plainNotedParser with includedRanges := [.ofBytes [32, 32, 32] 0 1, .ofBytes [32, 32, 32] 2 3] }

/-- Of three blanks, the second of which is left out, the tree is a root without children. It is a leaf that
is not missing, and no characters of one range reach from its start to its stop. -/
theorem parseBy_lossless_blanks : ∃ t,
    (partingParser.parseBy Prod.mk stillWorld 0 ⟨[32, 32, 32], .utf8⟩ none).1 = .ok t ∧
      t.rootNode ∈ t.rootNode.leaves ∧ t.rootNode.isMissing = false ∧
      ¬ t.rootNode.OfOneRange (.ofDocument ⟨[32, 32, 32], .utf8⟩ partingParser.includedRanges) := by
  have hroot : (partingParser.parseBy Prod.mk stillWorld 0 ⟨[32, 32, 32], .utf8⟩ none).1.toOption.map
      (fun t => (t.rootNode.childCount, t.rootNode.isMissing, t.rootNode.startByte, t.rootNode.stopByte)) =
      some (0, false, 0, 3) := by decide +kernel
  obtain ⟨result, hp⟩ : ∃ result,
      (partingParser.parseBy Prod.mk stillWorld 0 ⟨[32, 32, 32], .utf8⟩ none).1 = result := ⟨_, rfl⟩
  rw [hp] at hroot
  cases result with
  | error e => cases hroot
  | ok t =>
    obtain ⟨hcount, hroot⟩ := Prod.mk.inj (Option.some.inj hroot)
    obtain ⟨hmissing, hroot⟩ := Prod.mk.inj hroot
    obtain ⟨hstart, hstop⟩ := Prod.mk.inj hroot
    refine ⟨t, hp, ?_, hmissing, ?_⟩
    · rw [Node.leaves_of_eq hcount]
      exact List.mem_singleton_self _
    rintro ⟨-, -, -, a, cs, b, hchars, hspanned, -⟩
    have hbytes : ∀ c ∈ cs, c.byte = 0 ∧ c.stop = 1 ∨ c.byte = 2 := fun c hc =>
      (by decide +kernel : ∀ c ∈ (Source.ofDocument ⟨[32, 32, 32], .utf8⟩
        partingParser.includedRanges).chars, c.byte = 0 ∧ c.stop = 1 ∨ c.byte = 2) c (by
          rw [hchars]
          exact List.mem_append_left _ (List.mem_append_right _ hc))
    rw [hstart, hstop] at hspanned
    -- no character stands after the first one
    cases cs with
    | nil => cases hspanned
    | cons c cs =>
      obtain ⟨hbyte, hspanned⟩ := hspanned
      have hc := hbytes c (List.mem_cons_self ..)
      cases cs with
      | nil =>
        have hend : c.stop = 3 := hspanned
        omega
      | cons c' cs =>
        have hnext : c'.byte = c.stop := hspanned.1
        have hc' := hbytes c' (List.mem_cons_of_mem _ (List.mem_cons_self ..))
        omega

end C

end Reparse
