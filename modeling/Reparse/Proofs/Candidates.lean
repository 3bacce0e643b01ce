import Reparse.Proofs.Iterations
import Reparse.Proofs.Spanning
import Reparse.Proofs.Unchanged

/-!
# Candidates

What a tree offers to a call at a byte. The search goes down to the outermost node that starts there and
follows first children from it. So it finds a node that may be taken over unless a void node stands in
front of it, at the start of a node around it (`C.Matches.candidates_exact`). Such a void node is one
that was put in for a missing token, or one that an edit has emptied; all others have text
(`C.Matches.firm`).
-/

namespace Reparse

namespace Node

/-- Whether a node may be taken over at a byte: it is neither changed nor an error, the blank text before it
starts there, and it ends after it. -/
structure Ready (n : Node) (byte : Nat) : Prop where
  unchanged : n.hasChanges = false
  faultless : n.hasError = false
  starts : n.totalStart = byte
  ends : byte < n.stopByte

/-- Whether a node that starts at a byte hides one below it: its first child is void and stands in front of
that one. -/
structure Hides (m n : Node) (byte : Nat) : Prop where
  starts : m.totalStart = byte
  below : n ∈ m.inner
  void : ∃ c ∈ m.child? 0, c.stopByte ≤ byte

variable {r n m c d : Node} {byte : Nat}

/-- A node is ready by its marks, by its errors and by where it stands. -/
lemma ready_iff : n.Ready byte ↔
    n.hasChanges = false ∧ n.hasError = false ∧ n.totalStart = byte ∧ byte < n.stopByte :=
  ⟨fun ⟨hc, he, hs, hb⟩ => ⟨hc, he, hs, hb⟩, fun ⟨hc, he, hs, hb⟩ => ⟨hc, he, hs, hb⟩⟩

instance : Decidable (n.Ready byte) := decidable_of_iff _ ready_iff.symm

/-- A node that is ready is intact. -/
lemma Ready.intact (h : n.Ready byte) : Reuse.isIntact n = true :=
  Reuse.isIntact_iff.2 ⟨h.unchanged, h.faultless⟩

/-- A node that is ready meets the byte. -/
lemma Ready.meets (h : n.Ready byte) : n.Meets byte := ⟨Nat.le_of_eq h.starts, h.ends⟩

/-! ## Nodes that meet a byte -/

/-- A node meets the bytes that the nodes below it meet. -/
lemma Meets.of_mem_below (h : ∀ k ∈ r.below, k.Tiled) (hn : n ∈ r.below) (hm : n.Meets byte) :
    r.Meets byte := by
  obtain ⟨path, hpath⟩ := mem_below_iff.1 hn
  obtain ⟨hstart, hstop⟩ := inside_of_descend? h hpath
  exact ⟨Nat.le_trans hstart hm.1, Nat.lt_of_lt_of_le hm.2 hstop⟩

/-- At most one child meets a byte. -/
lemma eq_of_meets (h : r.Tiled) (hc : c ∈ r.children) (hd : d ∈ r.children) (hcm : c.Meets byte)
    (hdm : d.Meets byte) : c = d := by
  obtain ⟨i, hi⟩ := List.getElem?_of_mem hc
  obtain ⟨j, hj⟩ := List.getElem?_of_mem hd
  have hij : i = j := eq_of_pairwise h.ordered hi hj
    (fun hle => Nat.lt_irrefl _ (Nat.lt_of_lt_of_le (Nat.lt_of_lt_of_le hcm.2 hle) hdm.1))
    (fun hle => Nat.lt_irrefl _ (Nat.lt_of_lt_of_le (Nat.lt_of_lt_of_le hdm.2 hle) hcm.1))
  exact Option.some.inj (hi.symm.trans (hij ▸ hj))

/-- A node that meets a byte lies in the child that meets it. -/
lemma mem_below_of_meets (h : ∀ k ∈ r.below, k.Tiled) (hc : c ∈ r.children) (hcm : c.Meets byte)
    (hn : n ∈ r.inner) (hm : n.Meets byte) : n ∈ c.below := by
  obtain ⟨d, hd, hnd⟩ := List.mem_flatMap.1 hn
  have hdm : d.Meets byte := hm.of_mem_below (tiled_child h hd) hnd
  rwa [eq_of_meets (h r r.mem_below_self) hc hd hcm hdm]

/-- What hides a node that ends after a byte meets the byte. -/
lemma Hides.meets (hh : m.Hides n byte) (h : ∀ k ∈ r.below, k.Tiled) (hm : m ∈ r.below)
    (hn : byte < n.stopByte) : m.Meets byte := by
  obtain ⟨path, hpath⟩ := mem_below_iff.1 (mem_below_of_mem_inner hh.below)
  obtain ⟨-, hstop⟩ := inside_of_descend? (fun k hk => h k (mem_below_trans hm hk)) hpath
  exact ⟨Nat.le_of_eq hh.starts, Nat.lt_of_lt_of_le hn hstop⟩

/-- Where a child meets the byte, all that matters of what is below a node lies in that child. -/
lemma unhidden_child_iff (h : ∀ k ∈ r.below, k.Tiled) (hc : c ∈ r.children) (hmeets : c.Meets byte) :
    (n ∈ r.inner ∧ n.Ready byte ∧ ∀ m ∈ r.inner, ¬ m.Hides n byte) ↔
      n ∈ c.below ∧ n.Ready byte ∧ ∀ m ∈ c.below, ¬ m.Hides n byte := by
  constructor
  · rintro ⟨hn, hready, hshown⟩
    exact ⟨mem_below_of_meets h hc hmeets hn hready.meets, hready,
      fun m hm => hshown m (mem_inner_of_child hc hm)⟩
  · rintro ⟨hn, hready, hshown⟩
    refine ⟨mem_inner_of_child hc hn, hready, fun m hm hh => ?_⟩
    have hmmeets := hh.meets h (mem_below_of_mem_inner hm) hready.ends
    exact hshown m (mem_below_of_meets h hc hmeets hm hmmeets) hh

/-- The first child starts where its parent does. -/
lemma totalStart_first (h : r.Tiled) (hc : r.child? 0 = some c) : c.totalStart = r.totalStart := by
  have hpadding := h.padding
  obtain ⟨t, ⟨l, cs⟩, start⟩ := r
  cases cs with
  | nil => cases hc
  | cons first cs =>
    obtain rfl : ⟨t, first.node, start⟩ = c := Option.some.inj hc
    exact congrArg (start.bytes - ·) (hpadding first rfl)

/-- No node below another one is deeper than it. -/
lemma depth_le_of_mem_below (h : n ∈ r.below) : n.green.depth ≤ r.green.depth := by
  obtain ⟨path, hpath⟩ := mem_below_iff.1 h
  induction path generalizing r with
  | nil =>
    obtain rfl := Option.some.inj hpath
    exact Nat.le_refl _
  | cons i path ih =>
    obtain ⟨c, hc, hn⟩ := Option.bind_eq_some_iff.1 hpath
    have hle := ih (mem_below_iff.2 ⟨path, hn⟩) hn
    exact Nat.le_trans hle (Nat.le_of_lt (depth_child_lt (List.mem_of_getElem? hc)))

/-- A node inside another one is less deep. -/
lemma depth_lt_of_mem_inner (h : n ∈ r.inner) : n.green.depth < r.green.depth := by
  obtain ⟨c, hc, hn⟩ := List.mem_flatMap.1 h
  exact Nat.lt_of_le_of_lt (depth_le_of_mem_below hn) (depth_child_lt hc)

/-- What holds of all labels under a node holds of those of all nodes below it. -/
lemma every_inner {P : Label → Prop} (h : Green.EveryAll P r.green.children) (hn : n ∈ r.inner) :
    n.green.Every P := by
  obtain ⟨c, hc, hn⟩ := List.mem_flatMap.1 hn
  obtain ⟨path, hpath⟩ := mem_below_iff.1 hn
  have hevery := every_child h hc
  clear hc hn
  induction path generalizing c with
  | nil =>
    obtain rfl := Option.some.inj hpath
    exact hevery
  | cons i path ih =>
    obtain ⟨d, hd, hn⟩ := Option.bind_eq_some_iff.1 hpath
    exact ih _ hn (every_child (everyAll_of_every hevery) (List.mem_of_getElem? hd))

end Node

namespace Reuse

open Node

variable {r n c : Node} {byte levels : Nat}

/-! ## Chains -/

/-- The chain holds its first node, if that is intact, and the chain of the first child. -/
lemma mem_chain_succ (hstart : c.totalStart = byte) : n ∈ chain byte (levels + 1) c ↔
    n = c ∧ isIntact c = true ∨ ∃ z, c.child? 0 = some z ∧ n ∈ chain byte levels z := by
  rw [chain, if_pos hstart, List.mem_append]
  refine or_congr ?_ ?_
  · split <;> simp [*]
  · cases c.child? 0 <;> simp

/-- The chain of a node that starts at the byte consists of the nodes at or below it that may be taken over
and that none of them hides. -/
lemma mem_chain_iff (htiled : ∀ k ∈ c.below, k.Tiled)
    (hfirm : ∀ k ∈ c.below, isIntact k = true → k.totalStart < k.stopByte) (hstart : c.totalStart = byte)
    (hlevels : c.green.depth ≤ levels) : n ∈ chain byte levels c ↔
      n ∈ c.below ∧ n.Ready byte ∧ ∀ m ∈ c.below, ¬ m.Hides n byte := by
  induction levels generalizing c with
  | zero =>
    obtain ⟨t, ⟨l, cs⟩, start⟩ := c
    exact absurd hlevels (Nat.not_succ_le_zero _)
  | succ levels ih =>
    have hfirst : ∀ {z : Node}, c.child? 0 = some z → z.totalStart = byte := fun hz =>
      (totalStart_first (htiled c c.mem_below_self) hz).trans hstart
    have hchild : ∀ {z : Node}, c.child? 0 = some z → (n ∈ chain byte levels z ↔
        n ∈ z.below ∧ n.Ready byte ∧ ∀ m ∈ z.below, ¬ m.Hides n byte) := fun hz => by
      have hmem := List.mem_of_getElem? hz
      exact ih (tiled_child htiled hmem)
        (fun k hk => hfirm k (mem_below_of_mem_inner (mem_inner_of_child hmem hk))) (hfirst hz)
        (Nat.le_of_lt_succ (Nat.lt_of_lt_of_le (depth_child_lt hmem) hlevels))
    rw [mem_chain_succ hstart]
    constructor
    · rintro (⟨rfl, hintact⟩ | ⟨z, hz, hn⟩)
      · obtain ⟨hunchanged, hfaultless⟩ := isIntact_iff.1 hintact
        have hends : byte < n.stopByte := hstart ▸ hfirm n n.mem_below_self hintact
        refine ⟨n.mem_below_self, ⟨hunchanged, hfaultless, hstart, hends⟩, fun m hm hh => ?_⟩
        have hlt := depth_lt_of_mem_inner hh.below
        have hle := depth_le_of_mem_below hm
        omega
      · have hmem := List.mem_of_getElem? hz
        have hunhidden := (hchild hz).1 hn
        have hmeets : z.Meets byte :=
          hunhidden.2.1.meets.of_mem_below (tiled_child htiled hmem) hunhidden.1
        obtain ⟨hinner, hready, hshown⟩ := (unhidden_child_iff htiled hmem hmeets).2 hunhidden
        refine ⟨mem_below_of_mem_inner hinner, hready, fun m hm hh => ?_⟩
        rw [below_eq_inner] at hm
        rcases List.mem_cons.1 hm with rfl | hm
        · obtain ⟨z', hz', hvoid⟩ := hh.void
          obtain rfl := Option.some.inj (hz.symm.trans hz')
          exact Nat.not_lt_of_le hvoid hmeets.2
        · exact hshown m hm hh
    · rintro ⟨hbelow, hready, hshown⟩
      rw [below_eq_inner] at hbelow
      rcases List.mem_cons.1 hbelow with rfl | hinner
      · exact .inl ⟨rfl, hready.intact⟩
      · obtain ⟨z, hz⟩ : ∃ z, c.child? 0 = some z := by
          obtain ⟨d, hd, -⟩ := List.mem_flatMap.1 hinner
          exact ⟨_, List.getElem?_eq_getElem (List.length_pos_of_mem hd)⟩
        -- were the first child void, `c` would hide the node
        have hstop : byte < z.stopByte := Nat.lt_of_not_le fun hvoid =>
          hshown c c.mem_below_self ⟨hstart, hinner, z, hz, hvoid⟩
        have hmeets : z.Meets byte := ⟨Nat.le_of_eq (hfirst hz), hstop⟩
        refine .inr ⟨z, hz, (hchild hz).2 ((unhidden_child_iff htiled (List.mem_of_getElem? hz) hmeets).1 ?_)⟩
        exact ⟨hinner, hready, fun m hm => hshown m (mem_below_of_mem_inner hm)⟩

/-- A chain goes down: each of its nodes lies below those in front of it. -/
lemma pairwise_chain (levels : Nat) (c : Node) :
    (chain byte levels c).Pairwise fun m n => n ∈ m.inner := by
  induction levels generalizing c with
  | zero => exact .nil
  | succ levels ih =>
    rw [chain]
    split
    · refine List.pairwise_append.2 ⟨?_, ?_, fun m hm n hn => ?_⟩
      · split
        · exact List.pairwise_singleton ..
        · exact .nil
      · cases c.child? 0 with
        | none => exact .nil
        | some z => exact ih z
      · obtain rfl : m = c := by
          split at hm
          · exact List.mem_singleton.1 hm
          · cases hm
        cases hz : m.child? 0 with
        | none => simp [hz] at hn
        | some z =>
          rw [hz] at hn
          have hbelow := mem_below_iff.2 (exists_descend?_of_mem_chain hn)
          exact mem_inner_of_child (List.mem_of_getElem? hz) hbelow
    · exact .nil

/-! ## The search -/

/-- Where no child meets the byte, nothing is found. -/
lemma candidatesBelow_eq_nil (h : ∀ c ∈ r.children, ¬ c.Meets byte) :
    candidatesBelow byte (levels + 1) r = [] := by
  rw [candidatesBelow]
  split
  · rfl
  · rename_i c hfind
    have hc := h c (List.mem_of_find?_eq_some hfind)
    split
    · rename_i hstep
      obtain ⟨hstart, hstop⟩ := stepAt_eq_found.1 hstep
      exact absurd ⟨Nat.le_of_eq hstart, hstop⟩ hc
    · rename_i hstep
      obtain ⟨hstart, hstop⟩ := stepAt_eq_enter.1 hstep
      exact absurd ⟨Nat.le_of_lt hstart, hstop⟩ hc
    · rfl

/-- The search finds the nodes below the one where it starts that may be taken over and that none of them
hides. -/
theorem mem_candidatesBelow_iff (htiled : ∀ k ∈ r.below, k.Tiled) (hnested : r.Nested)
    (hfirm : ∀ k ∈ r.inner, isIntact k = true → k.totalStart < k.stopByte)
    (hlevels : r.green.depth ≤ levels) : n ∈ candidatesBelow byte levels r ↔
      n ∈ r.inner ∧ n.Ready byte ∧ ∀ m ∈ r.inner, ¬ m.Hides n byte := by
  induction levels generalizing r with
  | zero =>
    obtain ⟨t, ⟨l, cs⟩, start⟩ := r
    exact absurd hlevels (Nat.not_succ_le_zero _)
  | succ levels ih =>
    by_cases hex : ∃ c ∈ r.children, c.Meets byte
    · obtain ⟨c, hc, hmeets⟩ := hex
      have htiledc := tiled_child htiled hc
      have hfirmc : ∀ k ∈ c.below, isIntact k = true → k.totalStart < k.stopByte :=
        fun k hk => hfirm k (mem_inner_of_child hc hk)
      have hdepth := Nat.le_of_lt_succ (Nat.lt_of_lt_of_le (depth_child_lt hc) hlevels)
      rw [unhidden_child_iff htiled hc hmeets,
        candidatesBelow_of_meets (htiled r r.mem_below_self) hnested hc hmeets]
      split
      · rename_i hstart
        exact mem_chain_iff htiledc hfirmc hstart hdepth
      · rename_i hstart
        rw [ih htiledc (hnested.child hc) (fun k hk => hfirmc k (mem_below_of_mem_inner hk)) hdepth]
        -- the child itself starts before the byte
        simp only [below_eq_inner, List.mem_cons, forall_eq_or_imp]
        constructor
        · rintro ⟨hn, hready, hshown⟩
          exact ⟨.inr hn, hready, fun hh => hstart hh.starts, hshown⟩
        · rintro ⟨rfl | hn, hready, -, hshown⟩
          · exact absurd hready.starts hstart
          · exact ⟨hn, hready, hshown⟩
    · rw [candidatesBelow_eq_nil fun c hc hm => hex ⟨c, hc, hm⟩]
      refine iff_of_false List.not_mem_nil fun ⟨hn, hready, _⟩ => ?_
      obtain ⟨c, hc, hnc⟩ := List.mem_flatMap.1 hn
      exact hex ⟨c, hc, hready.meets.of_mem_below (tiled_child htiled hc) hnc⟩

/-- What the search finds goes down. -/
lemma pairwise_candidatesBelow (levels : Nat) (r : Node) :
    (candidatesBelow byte levels r).Pairwise fun m n => n ∈ m.inner := by
  induction levels generalizing r with
  | zero => exact .nil
  | succ levels ih =>
    rw [candidatesBelow]
    split
    · exact .nil
    · split
      · exact pairwise_chain ..
      · exact ih _
      · exact .nil

end Reuse

/-! ## Trees of documents -/

namespace C

variable {d : Document} {t : Tree} {n : Node} {byte : Nat}

/-- In a tree of a document, nodes below the root have text, but for those that are changed or errors. -/
theorem Matches.firm : ∀ {d : Document} {t : Tree}, Matches False d t →
    Green.EveryAll Label.Firm t.root.children
  | _, _, .parsed h hold hd _ hp => firm_of_parse h hold hd hp
  | _, _, @Matches.edited _ _ _ t e generation h _ _ => by
    have hfirm := h.firm
    obtain ⟨⟨l, cs⟩, grammar, ranges⟩ := t
    show Green.EveryAll Label.Firm ((Green.node l cs).edit generation [] e).children
    rw [Green.edit]
    split
    · exact hfirm
    · exact hfirm.edit (fun _ => Label.firm_of_marked) generation [] e e.isInsertion 0 .zero

/-- In a tree that matches, all nodes are tiled. -/
lemma Matches.tiled_below (h : Matches False d t) : ∀ k ∈ t.rootNode.below, k.Tiled :=
  Tree.tiled_below h.known.fits.tiled (Nat.le_trans h.known.fits.width_le h.known.length_le)

/-- So those that may be taken over end after the blank text before them starts. -/
lemma Matches.stops_after (h : Matches False d t) {k : Node} (hk : k ∈ t.rootNode.inner)
    (hintact : Reuse.isIntact k = true) : k.totalStart < k.stopByte := by
  obtain ⟨hunchanged, hfaultless⟩ := Reuse.isIntact_iff.1 hintact
  have hpos := Node.label_of_every (Node.every_inner h.firm hk) hunchanged hfaultless
  exact Tree.totalStart_lt_stopByte h.known.fits.tiled
    (Nat.le_trans h.known.fits.width_le h.known.length_le) (Node.mem_below_of_mem_inner hk) hpos

/-- What a tree offers to a call at a byte, whatever was parsed and edited before: the nodes below the root
that may be taken over there and that none hides, each once and before those below it. What hides a node is
a void node in front of it, which is changed or an error. -/
theorem Matches.candidates_exact (h : Matches False d t) (byte : Nat) :
    ((t.candidatesAt byte).Pairwise fun m n => n ∈ m.inner) ∧ (t.candidatesAt byte).Nodup ∧
      (∀ n, n ∈ t.candidatesAt byte ↔
        n ∈ t.rootNode.inner ∧ n.Ready byte ∧ ∀ m ∈ t.rootNode.inner, ¬ m.Hides n byte) ∧
      ∀ c ∈ t.rootNode.inner, c.stopByte ≤ c.totalStart → c.hasChanges = true ∨ c.hasError = true := by
  have hpairwise : (t.candidatesAt byte).Pairwise fun m n => n ∈ m.inner :=
    Reuse.pairwise_candidatesBelow _ _
  have hnested := Tree.nested_of_tiled h.known.fits.tiled
    (Nat.le_trans h.known.fits.width_le h.known.length_le)
  refine ⟨hpairwise, ?_, fun n => ?_, fun c hc hvoid => ?_⟩
  · refine hpairwise.imp fun hmem heq => ?_
    subst heq
    exact Nat.lt_irrefl _ (Node.depth_lt_of_mem_inner hmem)
  · exact Reuse.mem_candidatesBelow_iff h.tiled_below hnested (fun _ => h.stops_after) (Nat.le_refl _)
  · by_contra hnot
    have hintact : Reuse.isIntact c = true := Reuse.isIntact_iff.2 (by simpa using hnot)
    exact Nat.not_lt_of_le hvoid (h.stops_after hc hintact)

/-- At the start of `x;`, the statement is offered, and then its word. -/
theorem Matches.candidates_exact_word :
    ∃ t n, (plainParser.parse stillWorld 0 ⟨[120, 59], .utf8⟩ none).1 = .ok t ∧
      n ∈ t.candidatesAt 0 ∧ n ∈ t.rootNode.inner ∧ n.Ready 0 ∧
      ∀ m ∈ t.rootNode.inner, ¬ m.Hides n 0 := by
  obtain ⟨-, -, t, -, -, -, hp⟩ := @parse_of_neverFires plainParser stillWorld ⟨[120, 59], .utf8⟩ 0
    rfl neverFires_plainParser
  have hmatches : Matches False ⟨[120, 59], .utf8⟩ t :=
    .parsed (.new rfl rfl) (fun _ ht => by cases ht) (by decide) (fun hf => hf.elim) hp
  have hcount : ((plainParser.parse stillWorld 0 ⟨[120, 59], .utf8⟩ none).1.toOption.map
      fun t => (t.candidatesAt 0).length) = some 2 := by
    decide +kernel
  rw [hp] at hcount
  have hlength : (t.candidatesAt 0).length = 2 := Option.some.inj hcount
  obtain ⟨n, hn⟩ := List.exists_mem_of_length_pos (l := t.candidatesAt 0) (by omega)
  obtain ⟨-, -, hexact, -⟩ := hmatches.candidates_exact 0
  exact ⟨t, n, by rw [hp], hn, (hexact n).1 hn⟩

/-- A statement in braces. -/
def braced : Document := ⟨[123, 120, 59, 125], .utf8⟩

/-- The edit that takes the first byte of a text away, which is no line break. -/
def beheaded : Edit := ⟨.zero, ⟨1, ⟨0, 1⟩⟩, .zero⟩

/-- The brace in front of a statement is taken away. The statement is as it was and begins at the start of
the text, but the brace, of which nothing is left, hides it. -/
theorem exists_hidden :
    ∃ t, (plainParser.parse stillWorld 0 braced none).1 = .ok t ∧
      beheaded.Turns braced.bytes [120, 59, 125] ∧
      (∃ n ∈ (t.edit 1 beheaded).rootNode.inner, n.Ready 0) ∧
      (t.edit 1 beheaded).candidatesAt 0 = [] := by
  obtain ⟨-, -, t, -, -, -, hp⟩ := @parse_of_neverFires plainParser stillWorld braced 0 rfl
    neverFires_plainParser
  have hhidden : ((plainParser.parse stillWorld 0 braced none).1.toOption.map fun t =>
      decide ((∃ n ∈ (t.edit 1 beheaded).rootNode.inner, n.Ready 0) ∧
        ((t.edit 1 beheaded).candidatesAt 0).length = 0)) = some true := by
    decide +kernel
  rw [hp] at hhidden
  obtain ⟨hready, hnone⟩ := of_decide_eq_true (Option.some.inj hhidden)
  refine ⟨t, by rw [hp], ⟨by decide, by decide, by decide, [], rfl, rfl⟩, hready, ?_⟩
  exact List.length_eq_zero_iff.1 hnone

end C

end Reparse
