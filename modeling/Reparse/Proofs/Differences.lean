import Mathlib.Data.List.Basic
import Mathlib.Tactic.Lemma
import Reparse.Proofs.Agreement
import Reparse.Tree.Changes
import Reparse.Words

/-!
# Differences of trees

What the changed spans of two trees say. The list of them is in order with gaps (`merge_gaps`) and
loses nothing that was reported (`exists_of_merge`). Where the comparison of two nodes reports nothing
at a byte, the nodes below them that hold the byte look alike, and where it reports nothing at all, all
nodes below them do (`between_sound`). Both together are `changedSpans_sound`.
-/

namespace Reparse

/-! ## Lists of changes -/

namespace Changes

/-- A span stands before another one by its start, and of equal starts by its stop. -/
lemma standsBefore_iff {a b : Span} : standsBefore a b = true ↔
    a.start.bytes < b.start.bytes ∨ (a.start.bytes = b.start.bytes ∧ a.stop.bytes ≤ b.stop.bytes) := by
  simp [standsBefore]

/-- Spans can be put in order. -/
lemma pairwise_standsBefore (spans : List Span) :
    (spans.mergeSort standsBefore).Pairwise fun a b => a.start.bytes ≤ b.start.bytes := by
  have htrans : ∀ a b c, standsBefore a b = true → standsBefore b c = true →
      standsBefore a c = true := by
    intro a b c hab hbc
    rw [standsBefore_iff] at hab hbc ⊢
    omega
  have htotal : ∀ a b, (standsBefore a b || standsBefore b a) = true := by
    intro a b
    rw [Bool.or_eq_true, standsBefore_iff, standsBefore_iff]
    omega
  refine (List.pairwise_mergeSort htrans htotal spans).imp fun {a b} h => ?_
  rw [standsBefore_iff] at h
  omega

/-- Whether one span covers another. -/
def Covered (s m : Span) : Prop := m.start.bytes ≤ s.start.bytes ∧ s.stop.bytes ≤ m.stop.bytes

/-- Whether a span stands before another with a gap between them. -/
def Apart (a b : Span) : Prop := a.start.bytes ≤ b.start.bytes ∧ a.stop.bytes < b.start.bytes

/-- Spans that are joined begin where the first of them does. -/
lemma start_le_of_mem_joinFrom {current : Span} {spans : List Span}
    (h : (current :: spans).Pairwise fun a b => a.start.bytes ≤ b.start.bytes) :
    ∀ m ∈ joinFrom current spans, current.start.bytes ≤ m.start.bytes := by
  induction spans generalizing current with
  | nil =>
    intro m hm
    obtain rfl := List.mem_singleton.1 hm
    exact Nat.le_refl _
  | cons s rest ih =>
    obtain ⟨hc, hs⟩ := List.pairwise_cons.1 h
    obtain ⟨hs', hrest⟩ := List.pairwise_cons.1 hs
    intro m hm
    unfold joinFrom at hm
    split at hm
    · refine @ih ⟨current.start, if current.stop.bytes < s.stop.bytes then s.stop else current.stop⟩ ?_
        m hm
      exact List.pairwise_cons.2 ⟨fun r hr => hc r (List.mem_cons_of_mem s hr), hrest⟩
    · rcases List.mem_cons.1 hm with rfl | hm
      · exact Nat.le_refl _
      · exact Nat.le_trans (hc s (List.mem_cons_self ..)) (ih hs m hm)

/-- Spans in order have gaps between them once they are joined. -/
lemma pairwise_joinFrom {current : Span} {spans : List Span}
    (h : (current :: spans).Pairwise fun a b => a.start.bytes ≤ b.start.bytes) :
    (joinFrom current spans).Pairwise Apart := by
  induction spans generalizing current with
  | nil => exact List.pairwise_singleton _ _
  | cons s rest ih =>
    obtain ⟨hc, hs⟩ := List.pairwise_cons.1 h
    obtain ⟨hs', hrest⟩ := List.pairwise_cons.1 hs
    unfold joinFrom
    split
    · exact ih (List.pairwise_cons.2 ⟨fun r hr => hc r (List.mem_cons_of_mem s hr), hrest⟩)
    · rename_i hgap
      refine List.pairwise_cons.2 ⟨fun m hm => ?_, ih hs⟩
      have hsm := start_le_of_mem_joinFrom hs m hm
      have hcs := hc s (List.mem_cons_self ..)
      exact ⟨by omega, by omega⟩

/-- Every span that is joined is covered by what it is joined to. -/
lemma exists_of_joinFrom {current : Span} {spans : List Span}
    (h : (current :: spans).Pairwise fun a b => a.start.bytes ≤ b.start.bytes) :
    ∀ s ∈ current :: spans, ∃ m ∈ joinFrom current spans, Covered s m := by
  induction spans generalizing current with
  | nil =>
    intro s hs
    obtain rfl := List.mem_singleton.1 hs
    exact ⟨s, List.mem_singleton_self _, Nat.le_refl _, Nat.le_refl _⟩
  | cons r rest ih =>
    obtain ⟨hc, hr⟩ := List.pairwise_cons.1 h
    obtain ⟨hr', hrest⟩ := List.pairwise_cons.1 hr
    have hcr := hc r (List.mem_cons_self ..)
    intro s hs
    unfold joinFrom
    split
    · -- the two spans at the front become one, which covers both
      have ih := @ih ⟨current.start, if current.stop.bytes < r.stop.bytes then r.stop else current.stop⟩
        (List.pairwise_cons.2 ⟨fun m hm => hc m (List.mem_cons_of_mem r hm), hrest⟩)
      obtain ⟨m, hm, hstart, hstop⟩ := ih _ (List.mem_cons_self ..)
      dsimp only at hstart hstop
      have hlast : current.stop.bytes ≤ m.stop.bytes ∧ r.stop.bytes ≤ m.stop.bytes := by
        split at hstop <;> omega
      rcases List.mem_cons.1 hs with rfl | hs
      · exact ⟨m, hm, hstart, hlast.1⟩
      rcases List.mem_cons.1 hs with rfl | hs
      · exact ⟨m, hm, Nat.le_trans hstart hcr, hlast.2⟩
      · exact ih s (List.mem_cons_of_mem _ hs)
    · rcases List.mem_cons.1 hs with rfl | hs
      · exact ⟨s, List.mem_cons_self .., Nat.le_refl _, Nat.le_refl _⟩
      · obtain ⟨m, hm, hcov⟩ := ih hr s hs
        exact ⟨m, List.mem_cons_of_mem _ hm, hcov⟩

/-- Merged spans stand in order with gaps between them. -/
theorem merge_gaps (spans : List Span) : (merge spans).Pairwise Apart := by
  have hs := pairwise_standsBefore spans
  unfold merge
  cases h : spans.mergeSort standsBefore with
  | nil => exact List.Pairwise.nil
  | cons s rest =>
    rw [h] at hs
    exact pairwise_joinFrom hs

/-- Merging covers every span. -/
theorem exists_of_merge {spans : List Span} {s : Span} (hs : s ∈ spans) :
    ∃ m ∈ merge spans, Covered s m := by
  have hsorted := pairwise_standsBefore spans
  have hmem : s ∈ spans.mergeSort standsBefore := List.mem_mergeSort.2 hs
  unfold merge
  cases h : spans.mergeSort standsBefore with
  | nil =>
    rw [h] at hmem
    cases hmem
  | cons r rest =>
    rw [h] at hsorted hmem
    exact exists_of_joinFrom hsorted s hmem

/-- What covers a span holds its bytes. -/
lemma Covered.containsByte {s m : Span} (h : Covered s m) {byte : Nat}
    (hb : s.containsByte byte = true) : m.containsByte byte = true := by
  rw [Span.containsByte_iff] at hb ⊢
  obtain ⟨h1, h2⟩ := h
  omega

/-- A span that covers two stretches holds the bytes of both. -/
lemma containsByte_cover {a b : Span} {byte : Nat}
    (h : a.containsByte byte = true ∨ b.containsByte byte = true) :
    (cover a b).containsByte byte = true := by
  simp only [Span.containsByte_iff, cover] at h ⊢
  split <;> split <;> omega

end Changes

/-! ## Lists whose members stand apart -/

section

variable {α : Type} {R : α → α → Prop} {l : List α} {i j : Nat} {a b : α}

/-- What holds of all pairs of a list holds of a member and a later one. -/
lemma rel_of_pairwise (h : l.Pairwise R) (hi : l[i]? = some a) (hj : l[j]? = some b) (hlt : i < j) :
    R a b := by
  obtain ⟨hi', rfl⟩ := List.getElem?_eq_some_iff.1 hi
  obtain ⟨hj', rfl⟩ := List.getElem?_eq_some_iff.1 hj
  exact List.pairwise_iff_getElem.1 h i j hi' hj' hlt

/-- Members of which it holds in neither order are one and the same. -/
lemma eq_of_pairwise (h : l.Pairwise R) (hi : l[i]? = some a) (hj : l[j]? = some b) (hab : ¬ R a b)
    (hba : ¬ R b a) : i = j := by
  rcases Nat.lt_trichotomy i j with hlt | heq | hgt
  · exact absurd (rel_of_pairwise h hi hj hlt) hab
  · exact heq
  · exact absurd (rel_of_pairwise h hj hi hgt) hba

end

/-! ## Nodes that look alike -/

/-- How a node looks, apart from what is below it. -/
structure Look where
  symbol : Symbol
  start : Length
  stop : Length
  isMissing : Bool
  isExtra : Bool
deriving DecidableEq

namespace Node

/-- How a node looks. -/
def look (n : Node) : Look := ⟨n.symbol, n.start, n.stop, n.isMissing, n.isExtra⟩

/-- The nodes below a node, in document order. -/
def inner (n : Node) : List Node := n.children.flatMap below

/-- The nodes below a node that hold a byte, outermost first. -/
def chainAt (n : Node) (byte : Nat) : List Node := n.inner.filter fun m => m.span.containsByte byte

/-- Whether the children of a node and of all nodes below it stand in order, apart, and inside their
parent. -/
def Nested (n : Node) : Prop :=
  ∀ m ∈ n.below, (m.children.Pairwise fun a b => a.stopByte ≤ b.startByte) ∧
    ∀ c ∈ m.children, m.startByte ≤ c.startByte ∧ c.startByte ≤ c.stopByte ∧ c.stopByte ≤ m.stopByte

instance (n : Node) : Decidable n.Nested :=
  inferInstanceAs (Decidable (∀ m ∈ n.below, (m.children.Pairwise fun a b => a.stopByte ≤ b.startByte) ∧
    ∀ c ∈ m.children, m.startByte ≤ c.startByte ∧ c.startByte ≤ c.stopByte ∧ c.stopByte ≤ m.stopByte))

/-- Nodes have the same shape if they look the same. -/
lemma sameShape_iff {a b : Node} : Changes.sameShape a b = true ↔ a.look = b.look := by
  simp [Changes.sameShape, look, and_assoc]

/-- Below a node are the node itself and those inside it. -/
lemma below_eq_inner (n : Node) : n.below = n :: n.inner := below_eq n

/-- A node is below itself. -/
lemma mem_below_self (n : Node) : n ∈ n.below := by
  rw [below_eq]
  exact List.mem_cons_self ..

/-- What is inside a node is below it. -/
lemma mem_below_of_mem_inner {n m : Node} (h : m ∈ n.inner) : m ∈ n.below := by
  rw [below_eq]
  exact List.mem_cons_of_mem n h

/-- What is below a child is below the node. -/
lemma mem_inner_of_child {n c m : Node} (hc : c ∈ n.children) (hm : m ∈ c.below) : m ∈ n.inner :=
  List.mem_flatMap.2 ⟨c, hc, hm⟩

/-- In nested nodes the children are nested as well. -/
lemma Nested.child {n c : Node} (h : n.Nested) (hc : c ∈ n.children) : c.Nested :=
  fun m hm => h m (mem_below_of_mem_inner (mem_inner_of_child hc hm))

/-- In nested nodes the children lie inside. -/
lemma Nested.inside {n c : Node} (h : n.Nested) (hc : c ∈ n.children) :
    n.startByte ≤ c.startByte ∧ c.startByte ≤ c.stopByte ∧ c.stopByte ≤ n.stopByte :=
  (h n n.mem_below_self).2 c hc

/-- In nested nodes no two children overlap. -/
lemma Nested.apart {n : Node} (h : n.Nested) :
    n.children.Pairwise fun a b => a.stopByte ≤ b.startByte :=
  (h n n.mem_below_self).1

/-- A child is less deep than its node. -/
lemma depth_child_lt {n c : Node} (hc : c ∈ n.children) : c.green.depth < n.green.depth := by
  obtain ⟨e, he, rfl⟩ := List.mem_map.1 hc
  exact depth_entry_lt he

/-- All nodes below a node stand inside it. -/
lemma Nested.inside_below {n m : Node} (h : n.Nested) (hm : m ∈ n.inner) :
    n.startByte ≤ m.startByte ∧ m.stopByte ≤ n.stopByte := by
  induction hd : n.green.depth using Nat.strongRecOn generalizing n with
  | _ d ih =>
    obtain ⟨c, hc, hm⟩ := List.mem_flatMap.1 hm
    have hin := h.inside hc
    rw [below_eq_inner] at hm
    rcases List.mem_cons.1 hm with rfl | hm
    · exact ⟨hin.1, hin.2.2⟩
    · have hrec := ih c.green.depth (hd ▸ depth_child_lt hc) (h.child hc) hm rfl
      omega

/-- A node that does not hold a byte has no node below it that does. -/
lemma Nested.chainAt_eq_nil {n : Node} (h : n.Nested) {byte : Nat}
    (hb : n.span.containsByte byte = false) : n.chainAt byte = [] := by
  refine List.filter_eq_nil_iff.2 fun m hm hc => ?_
  have hin := h.inside_below hm
  rw [Span.containsByte_iff] at hc
  have hn : n.span.containsByte byte = true := by
    rw [Span.containsByte_iff]
    have h1 : n.span.start.bytes = n.startByte := rfl
    have h2 : n.span.stop.bytes = n.stopByte := rfl
    have h3 : m.span.start.bytes = m.startByte := rfl
    have h4 : m.span.stop.bytes = m.stopByte := rfl
    omega
  rw [hn] at hb
  cases hb

/-- The chain of a node and those below it at a byte. -/
def chainFrom (n : Node) (byte : Nat) : List Node := n.below.filter fun m => m.span.containsByte byte

/-- The chain at a byte goes down from the children. -/
lemma chainAt_eq (n : Node) (byte : Nat) : n.chainAt byte = n.children.flatMap (·.chainFrom byte) := by
  rw [chainAt, inner, List.filter_flatMap]
  rfl

/-- The chain from a node begins with it if it holds the byte. -/
lemma chainFrom_eq (n : Node) (byte : Nat) :
    n.chainFrom byte = (if n.span.containsByte byte then [n] else []) ++ n.chainAt byte := by
  rw [chainFrom, below_eq_inner, List.filter_cons]
  split <;> rfl

/-- A nested node that does not hold the byte has an empty chain. -/
lemma Nested.chainFrom_eq_nil {n : Node} (h : n.Nested) {byte : Nat}
    (hb : n.span.containsByte byte = false) : n.chainFrom byte = [] := by
  rw [chainFrom_eq, h.chainAt_eq_nil hb, hb]
  rfl

/-- What is below a node depends only on its storage and on where it starts. -/
lemma inner_congr {n m : Node} (hg : n.green = m.green) (hs : n.start = m.start) :
    n.inner.map (fun k => (k.look, k.childCount)) = m.inner.map fun k => (k.look, k.childCount) := by
  have hall : ∀ k : Node, k.below.map (fun k => (k.look, k.childCount)) =
      ((visitsWithin k.green.depth 0 none k).map Visit.finding).map fun f =>
        ((⟨f.symbol, f.start, f.stop, f.isMissing, f.isExtra⟩ : Look), f.childCount) := by
    intro k
    rw [below, List.map_map, List.map_map]
    rfl
  have hbelow : n.below.map (fun k => (k.look, k.childCount)) =
      m.below.map fun k => (k.look, k.childCount) := by
    rw [hall, hall, hg, findings_congr _ _ _ hg hs]
  rw [below_eq_inner, below_eq_inner, List.map_cons, List.map_cons] at hbelow
  exact (List.cons.inj hbelow).2

end Node

/-! ## What the comparison of two nodes leaves out -/

namespace Changes

open Node

/-- Whether the nodes below two nodes look alike wherever some spans leave a byte out, and altogether
if there is no span. -/
structure Silent (spans : List Span) (old new : Node) : Prop where
  chain : ∀ byte, (∀ s ∈ spans, s.containsByte byte = false) →
    (old.chainAt byte).map look = (new.chainAt byte).map look
  count : spans = [] → old.childCount = new.childCount
  inner : spans = [] → old.inner.map (fun k => (k.look, k.childCount)) =
    new.inner.map fun k => (k.look, k.childCount)

/-- The pairs at the front that agree look alike. -/
lemma agreeing_spec (as bs : List Node) :
    (as.take (agreeing as bs)).map look = (bs.take (agreeing as bs)).map look ∧
      agreeing as bs ≤ as.length ∧ agreeing as bs ≤ bs.length := by
  induction as generalizing bs with
  | nil => exact ⟨rfl, Nat.le_refl _, Nat.zero_le _⟩
  | cons a as ih =>
    cases bs with
    | nil => exact ⟨rfl, Nat.zero_le _, Nat.le_refl _⟩
    | cons b bs =>
      unfold agreeing
      split
      · rename_i hab
        obtain ⟨htake, hle, hle'⟩ := ih bs
        simp only [List.take_succ_cons, List.map_cons, sameShape_iff.1 hab, htake, List.length_cons]
        exact ⟨trivial, Nat.succ_le_succ hle, Nat.succ_le_succ hle'⟩
      · exact ⟨rfl, Nat.zero_le _, Nat.zero_le _⟩

/-- The pairs at the back that agree look alike. -/
lemma agreeing_reverse (as bs : List Node) :
    (as.drop (as.length - agreeing as.reverse bs.reverse)).map look =
      (bs.drop (bs.length - agreeing as.reverse bs.reverse)).map look ∧
      agreeing as.reverse bs.reverse ≤ as.length ∧ agreeing as.reverse bs.reverse ≤ bs.length := by
  obtain ⟨htake, hle, hle'⟩ := agreeing_spec as.reverse bs.reverse
  rw [List.length_reverse] at hle hle'
  refine ⟨?_, hle, hle'⟩
  rw [List.take_reverse, List.take_reverse, List.map_reverse, List.map_reverse] at htake
  exact List.reverse_injective htake

/-- A node among some that stand in order lies between the first and the last of them. -/
lemma between_of_pairwise {ns : List Node} (h : ns.Pairwise fun a b => a.stopByte ≤ b.startByte)
    (hle : ∀ n ∈ ns, n.startByte ≤ n.stopByte) {first last m : Node} (hf : ns.head? = some first)
    (hl : ns.getLast? = some last) (hm : m ∈ ns) :
    first.startByte ≤ m.startByte ∧ m.stopByte ≤ last.stopByte := by
  constructor
  · obtain ⟨rest, rfl⟩ := List.head?_eq_some_iff.1 hf
    rcases List.mem_cons.1 hm with rfl | hm
    · exact Nat.le_refl _
    · exact Nat.le_trans (hle first (List.mem_cons_self ..)) ((List.pairwise_cons.1 h).1 m hm)
  · obtain ⟨before, rfl⟩ := List.getLast?_eq_some_iff.1 hl
    rcases List.mem_append.1 hm with hm | hm
    · exact Nat.le_trans ((List.pairwise_append.1 h).2.2 m hm last (List.mem_singleton_self _))
        (hle last (by simp))
    · obtain rfl := List.mem_singleton.1 hm
      exact Nat.le_refl _

/-- Whether a split has the children of a node, in their order. -/
def Split.Covers (s : Split) (parent : Node) : Prop :=
  s.front ++ s.middle ++ s.back = parent.children

/-- Children are their front, their middle and their back. -/
lemma Split.covers_of (parent : Node) {front back : Nat}
    (h : front + back ≤ parent.children.length) :
    (Split.of parent parent.children front back).Covers parent := by
  have hback : parent.children.drop (parent.children.length - back) =
      (parent.children.drop front).drop (parent.children.length - back - front) := by
    rw [List.drop_drop]
    congr 1
    omega
  simp only [Split.Covers, Split.of, hback]
  rw [List.append_assoc, List.take_append_drop, List.take_append_drop]

/-- The three parts of a split make up all children. -/
lemma Split.Covers.append_eq {s : Split} {parent : Node} (h : s.Covers parent) :
    s.front ++ s.middle ++ s.back = parent.children := h

/-- What is in one of the parts is a child. -/
lemma Split.Covers.mem {s : Split} {parent m : Node} (h : s.Covers parent)
    (hm : m ∈ s.front ∨ m ∈ s.middle ∨ m ∈ s.back) : m ∈ parent.children := by
  rw [← h.append_eq]
  simpa [or_assoc] using hm

/-- A byte outside of the stretch of a middle is held by no node of the middle or below it. -/
lemma Split.Covers.chainFrom_middle {s : Split} {parent : Node} (h : s.Covers parent)
    (hn : parent.Nested) {byte : Nat} (hb : s.middleSpan.containsByte byte = false) :
    s.middle.flatMap (·.chainFrom byte) = [] := by
  have hmem : ∀ m ∈ s.middle, m ∈ parent.children := fun m hm => h.mem (.inr (.inl hm))
  have hp := hn.apart
  rw [← h.append_eq] at hp
  have hp := (List.pairwise_append.1 (List.pairwise_append.1 hp).1).2.1
  have hle : ∀ m ∈ s.middle, m.startByte ≤ m.stopByte := fun m hm => (hn.inside (hmem m hm)).2.1
  refine List.flatMap_eq_nil_iff.2 fun m hm => (hn.child (hmem m hm)).chainFrom_eq_nil ?_
  have hne := List.ne_nil_of_mem hm
  obtain ⟨first, hf⟩ := Option.isSome_iff_exists.1 (List.isSome_head?.2 hne)
  obtain ⟨last, hl⟩ := Option.isSome_iff_exists.1 (List.getLast?_isSome.2 hne)
  obtain ⟨h1, h2⟩ := between_of_pairwise hp hle hf hl hm
  have hspan : s.middleSpan = ⟨first.start, last.stop⟩ := by
    simp only [Split.middleSpan, hf, hl]
  rw [hspan] at hb
  by_contra hc
  rw [Bool.not_eq_false, Span.containsByte_iff] at hc
  have hin : (Span.mk first.start last.stop).containsByte byte = true := by
    rw [Span.containsByte_iff]
    exact ⟨Nat.le_trans h1 hc.1, Nat.lt_of_lt_of_le hc.2 h2⟩
  rw [hb] at hin
  cases hin

/-- What is reported for two middles holds the bytes of both stretches. -/
lemma middleChange_containsByte {old new : Split} {byte : Nat}
    (h : ∀ s ∈ middleChange old new, s.containsByte byte = false) :
    old.middleSpan.containsByte byte = false ∧ new.middleSpan.containsByte byte = false := by
  have hvoid : ∀ s : Span, s.start = s.stop → s.containsByte byte = false := by
    intro s hs
    by_contra hc
    rw [Bool.not_eq_false, Span.containsByte_iff, hs] at hc
    omega
  unfold middleChange at h
  dsimp only at h
  split at h
  · have hcover := h _ (List.mem_singleton_self _)
    constructor
    · by_contra hc
      rw [containsByte_cover (.inl (by simpa using hc))] at hcover
      cases hcover
    · by_contra hc
      rw [containsByte_cover (.inr (by simpa using hc))] at hcover
      cases hcover
  · rename_i hsame
    simp only [not_or, Decidable.not_not] at hsame
    exact ⟨hvoid _ hsame.1, hvoid _ hsame.2⟩

/-- Something is reported for two middles unless both are empty. -/
lemma middle_of_middleChange_eq_nil {old new : Split} (h : middleChange old new = []) :
    old.middle = [] ∧ new.middle = [] := by
  unfold middleChange at h
  dsimp only at h
  split at h
  · cases h
  split at h
  · rename_i he
    rw [Bool.and_eq_true] at he
    exact ⟨List.isEmpty_iff.1 he.1, List.isEmpty_iff.1 he.2⟩
  · cases h

/-- Nodes that look alike in pairs, each silent outside of what is reported for it, have chains that
look alike where nothing is reported. -/
lemma chainFrom_of_silent {f : Node → Node → List Span} {as bs : List Node}
    (hlook : as.map look = bs.map look) (h : ∀ a ∈ as, ∀ b ∈ bs, a.look = b.look → Silent (f a b) a b)
    {byte : Nat} (hb : ∀ s ∈ (List.zipWith f as bs).flatten, s.containsByte byte = false) :
    (as.flatMap (·.chainFrom byte)).map look = (bs.flatMap (·.chainFrom byte)).map look := by
  induction as generalizing bs with
  | nil =>
    obtain rfl : bs = [] := List.map_eq_nil_iff.1 hlook.symm
    rfl
  | cons a as ih =>
    cases bs with
    | nil => cases hlook
    | cons b bs =>
      obtain ⟨hab, hrest⟩ := List.cons.inj hlook
      have hsilent := h a (List.mem_cons_self ..) b (List.mem_cons_self ..) hab
      have hchain := hsilent.chain byte fun s hs => hb s (by
        rw [List.zipWith_cons_cons, List.flatten_cons]
        exact List.mem_append_left _ hs)
      have hspan : a.span = b.span := by
        rw [span, span, show a.start = b.start from congrArg Look.start hab,
          show a.stop = b.stop from congrArg Look.stop hab]
      have ih := ih hrest (fun c hc d hd => h c (List.mem_cons_of_mem a hc) d (List.mem_cons_of_mem b hd))
        fun s hs => hb s (by
          rw [List.zipWith_cons_cons, List.flatten_cons]
          exact List.mem_append_right _ hs)
      simp only [List.flatMap_cons, List.map_append, chainFrom_eq, hchain, hspan] at ih ⊢
      rw [ih]
      congr 2
      split
      · rw [List.map_singleton, List.map_singleton, hab]
      · rfl

/-- Nodes that look alike in pairs and for which nothing is reported have below them nodes that look
alike. -/
lemma below_of_silent {f : Node → Node → List Span} {as bs : List Node}
    (hlook : as.map look = bs.map look) (h : ∀ a ∈ as, ∀ b ∈ bs, a.look = b.look → Silent (f a b) a b)
    (hnil : (List.zipWith f as bs).flatten = []) :
    (as.flatMap below).map (fun k => (k.look, k.childCount)) =
      (bs.flatMap below).map fun k => (k.look, k.childCount) := by
  induction as generalizing bs with
  | nil =>
    obtain rfl : bs = [] := List.map_eq_nil_iff.1 hlook.symm
    rfl
  | cons a as ih =>
    cases bs with
    | nil => cases hlook
    | cons b bs =>
      obtain ⟨hab, hrest⟩ := List.cons.inj hlook
      have hsilent := h a (List.mem_cons_self ..) b (List.mem_cons_self ..) hab
      rw [List.zipWith_cons_cons, List.flatten_cons, List.append_eq_nil_iff] at hnil
      have ih := ih hrest (fun c hc d hd => h c (List.mem_cons_of_mem a hc) d (List.mem_cons_of_mem b hd))
        hnil.2
      rw [List.flatMap_cons, List.flatMap_cons, List.map_append, List.map_append, ih, below_eq_inner,
        below_eq_inner, List.map_cons, List.map_cons, hsilent.inner hnil.1, hsilent.count hnil.1, hab]

/-- Whether the names of storage that two nodes share stand for the same trees. -/
def SharesStorage (old new : Node) : Prop :=
  ∀ a ∈ old.below, ∀ b ∈ new.below, a.sameStorage b = true → a.green = b.green

/-- Where two nodes share storage, their children do. -/
lemma SharesStorage.child {old new a b : Node} (h : SharesStorage old new) (ha : a ∈ old.children)
    (hb : b ∈ new.children) : SharesStorage a b :=
  fun c hc d hd => h c (mem_below_of_mem_inner (mem_inner_of_child ha hc)) d
    (mem_below_of_mem_inner (mem_inner_of_child hb hd))

/-- Outside of the span of both, neither of two nodes holds a byte. -/
lemma silent_cover {old new : Node} (hold : old.Nested) (hnew : new.Nested) :
    Silent [cover old.span new.span] old new where
  chain byte hb := by
    have hcover := hb _ (List.mem_singleton_self _)
    rw [hold.chainAt_eq_nil, hnew.chainAt_eq_nil]
    · by_contra hc
      rw [containsByte_cover (.inr (by simpa using hc))] at hcover
      cases hcover
    · by_contra hc
      rw [containsByte_cover (.inl (by simpa using hc))] at hcover
      cases hcover
  count h := by cases h
  inner h := by cases h

/-- Nodes without children have nothing below them. -/
lemma silent_of_isEmpty {old new : Node} (spans : List Span) (ho : old.children = [])
    (hn : new.children = []) : Silent spans old new where
  chain byte _ := by rw [chainAt_eq, chainAt_eq, ho, hn]
  count _ := by rw [← length_children, ← length_children, ho, hn]
  inner _ := by rw [Node.inner, Node.inner, ho, hn]

/-- Nodes with the same storage at the same place are alike all the way down. -/
lemma silent_of_green {old new : Node} (spans : List Span) (hg : old.green = new.green)
    (hs : old.start = new.start) : Silent spans old new where
  chain byte _ := by
    have hmap := congrArg (List.map Prod.fst) (inner_congr hg hs)
    rw [List.map_map, List.map_map] at hmap
    have hfilter : ∀ ns : List Node, (ns.filter fun m => m.span.containsByte byte).map look =
        (ns.map look).filter fun l => (Span.mk l.start l.stop).containsByte byte := by
      intro ns
      rw [List.filter_map]
      rfl
    rw [chainAt, chainAt, hfilter, hfilter]
    exact congrArg _ hmap
  count _ := by rw [childCount, childCount, hg]
  inner _ := inner_congr hg hs

/-- Splits of the children of two nodes whose fronts and whose backs look alike in pairs. -/
structure Alike (old new : Node) (o n : Split) : Prop where
  olds : o.Covers old
  news : n.Covers new
  fronts : o.front.map look = n.front.map look
  backs : o.back.map look = n.back.map look

/-- The splits of two nodes by where the two agree. -/
lemma alike_agreeing (old new : Node) {front back : Nat}
    (hf : front = agreeing old.children new.children)
    (hb : back = agreeing (old.children.drop front).reverse (new.children.drop front).reverse) :
    Alike old new (Split.of old old.children front back) (Split.of new new.children front back) := by
  obtain ⟨hfront, hfo, hfn⟩ := agreeing_spec old.children new.children
  obtain ⟨hback, hbo, hbn⟩ := agreeing_reverse (old.children.drop front) (new.children.drop front)
  rw [← hf] at hfront hfo hfn
  rw [← hb, List.length_drop] at hbo hbn
  refine ⟨Split.covers_of old (by omega), Split.covers_of new (by omega), hfront, ?_⟩
  rw [← hb, List.length_drop, List.length_drop, List.drop_drop, List.drop_drop,
    show front + (old.children.length - front - back) = old.children.length - back by omega,
    show front + (new.children.length - front - back) = new.children.length - back by omega] at hback
  exact hback

/-- Two nodes are silent outside of what is reported for their fronts, their middles and their
backs. -/
lemma Alike.silent {f : Node → Node → List Span} {old new : Node} {o n : Split}
    (h : Alike old new o n) (hold : old.Nested) (hnew : new.Nested)
    (hrec : ∀ a ∈ old.children, ∀ b ∈ new.children, Silent (f a b) a b) :
    Silent ((List.zipWith f o.front n.front).flatten ++ middleChange o n ++
      (List.zipWith f o.back n.back).flatten) old new := by
  obtain ⟨ho, hn, hfronts, hbacks⟩ := h
  have hf : ∀ a ∈ o.front, ∀ b ∈ n.front, a.look = b.look → Silent (f a b) a b :=
    fun a ha b hb _ => hrec a (ho.mem (.inl ha)) b (hn.mem (.inl hb))
  have hb : ∀ a ∈ o.back, ∀ b ∈ n.back, a.look = b.look → Silent (f a b) a b :=
    fun a ha b hb _ => hrec a (ho.mem (.inr (.inr ha))) b (hn.mem (.inr (.inr hb)))
  refine ⟨fun byte hbyte => ?_, fun hnil => ?_, fun hnil => ?_⟩
  · have hcf := chainFrom_of_silent hfronts hf fun s hs => hbyte s (by simp [hs])
    have hcb := chainFrom_of_silent hbacks hb fun s hs => hbyte s (by simp [hs])
    obtain ⟨h1, h2⟩ := @middleChange_containsByte o n byte fun s hs => hbyte s (by simp [hs])
    rw [chainAt_eq, chainAt_eq, ← ho.append_eq, ← hn.append_eq]
    simp only [List.flatMap_append, List.map_append, hcf, hcb, ho.chainFrom_middle hold h1,
      hn.chainFrom_middle hnew h2]
  · simp only [List.append_eq_nil_iff] at hnil
    obtain ⟨hmo, hmn⟩ := middle_of_middleChange_eq_nil hnil.1.2
    have h1 := congrArg List.length hfronts
    have h2 := congrArg List.length hbacks
    rw [← length_children, ← length_children, ← ho.append_eq, ← hn.append_eq, hmo, hmn]
    simp only [List.length_map] at h1 h2
    simp only [List.length_append, h1, h2]
  · simp only [List.append_eq_nil_iff] at hnil
    obtain ⟨hmo, hmn⟩ := middle_of_middleChange_eq_nil hnil.1.2
    rw [Node.inner, Node.inner, ← ho.append_eq, ← hn.append_eq, hmo, hmn]
    simp only [List.append_nil, List.flatMap_append, List.map_append]
    rw [below_of_silent hfronts hf hnil.1.1, below_of_silent hbacks hb hnil.2]

/-- The comparison of two nodes is silent only about what looks alike. -/
theorem between_sound (levels : Nat) {old new : Node} (hlo : old.green.depth ≤ levels)
    (hln : new.green.depth ≤ levels) (hold : old.Nested) (hnew : new.Nested)
    (hs : SharesStorage old new) : Silent (between levels old new) old new := by
  induction levels generalizing old new with
  | zero =>
    generalize old.green = g at hlo
    cases g
    exact absurd hlo (Nat.not_succ_le_zero _)
  | succ levels ih =>
    unfold between
    split
    · rename_i hsame
      rw [Bool.and_eq_true, beq_iff_eq] at hsame
      exact silent_of_green _ (hs old old.mem_below_self new new.mem_below_self hsame.1) hsame.2
    split
    · exact silent_cover hold hnew
    dsimp only
    split
    · rename_i hempty
      rw [Bool.and_eq_true] at hempty
      exact silent_of_isEmpty _ (List.isEmpty_iff.1 hempty.1) (List.isEmpty_iff.1 hempty.2)
    · refine (alike_agreeing old new rfl rfl).silent hold hnew fun a ha b hb => ?_
      exact ih (Nat.le_of_lt_succ (Nat.lt_of_lt_of_le (depth_child_lt ha) hlo))
        (Nat.le_of_lt_succ (Nat.lt_of_lt_of_le (depth_child_lt hb) hln)) (hold.child ha)
        (hnew.child hb) (hs.child ha hb)

end Changes

/-! ## Changed spans -/

open Changes

/-- What the changed spans of two trees say of these. -/
structure Tree.Compared (old new : Tree) : Prop where
  apart : (old.changedSpans new).Pairwise Apart
  chains : ∀ byte, (∀ s ∈ old.changedSpans new, s.containsByte byte = false) →
    (old.rootNode.chainAt byte).map Node.look = (new.rootNode.chainAt byte).map Node.look
  ranges : ∀ r, (r ∈ old.includedRanges ∧ r ∉ new.includedRanges) ∨
      (r ∈ new.includedRanges ∧ r ∉ old.includedRanges) →
    ∃ s ∈ old.changedSpans new, Covered r s
  alike : old.changedSpans new = [] → old.rootNode.childCount = new.rootNode.childCount ∧
    old.rootNode.inner.map (fun n => (n.look, n.childCount)) =
      new.rootNode.inner.map fun n => (n.look, n.childCount)

/-- Trees that nest and share storage only where they are the same are compared. -/
lemma Tree.compared {old new : Tree} (ho : old.rootNode.Nested) (hn : new.rootNode.Nested)
    (hs : SharesStorage old.rootNode new.rootNode) : old.Compared new := by
  have hsilent := between_sound (max old.root.depth new.root.depth) (Nat.le_max_left _ _)
    (Nat.le_max_right _ _) ho hn hs
  have hcovers : ∀ s ∈ between (max old.root.depth new.root.depth) old.rootNode new.rootNode ++
      onlyIn old.includedRanges new.includedRanges ++ onlyIn new.includedRanges old.includedRanges,
      ∃ m ∈ old.changedSpans new, Covered s m := fun s hs => exists_of_merge hs
  refine ⟨merge_gaps _, fun byte hb => hsilent.chain byte fun s hs => ?_, fun r hr => hcovers r ?_,
    fun hnil => ?_⟩
  · obtain ⟨m, hm, hcov⟩ := hcovers s (by simp [hs])
    by_contra hc
    rw [Bool.not_eq_false] at hc
    have := hb m hm
    rw [hcov.containsByte hc] at this
    cases this
  · rcases hr with ⟨hr, hr'⟩ | ⟨hr, hr'⟩ <;> simp [onlyIn, hr, hr']
  · have hbetween : between (max old.root.depth new.root.depth) old.rootNode new.rootNode = [] := by
      refine List.eq_nil_iff_forall_not_mem.2 fun s hs => ?_
      obtain ⟨m, hm, -⟩ := hcovers s (by simp [hs])
      rw [hnil] at hm
      cases hm
    exact ⟨hsilent.count hbetween, hsilent.inner hbetween⟩

/-- The changed spans of two trees stand in order with gaps between them. A byte outside of all of them
is held in both trees by nodes that look alike, one inside the other. Every range that only one of the
trees was parsed from lies in one of them. If there is none, all nodes below the roots look alike. -/
theorem Tree.changedSpans_sound {old new : Tree} (ho : old.rootNode.Nested)
    (hn : new.rootNode.Nested) (hs : SharesStorage old.rootNode new.rootNode) :
    (old.changedSpans new).Pairwise Apart ∧
    (∀ byte, (∀ s ∈ old.changedSpans new, s.containsByte byte = false) →
      (old.rootNode.chainAt byte).map Node.look = (new.rootNode.chainAt byte).map Node.look) ∧
    (∀ r, (r ∈ old.includedRanges ∧ r ∉ new.includedRanges) ∨
        (r ∈ new.includedRanges ∧ r ∉ old.includedRanges) →
      ∃ s ∈ old.changedSpans new, Covered r s) ∧
    (old.changedSpans new = [] → old.rootNode.childCount = new.rootNode.childCount ∧
      old.rootNode.inner.map (fun n => (n.look, n.childCount)) =
        new.rootNode.inner.map fun n => (n.look, n.childCount)) := by
  obtain ⟨hapart, hchains, hranges, halike⟩ := compared ho hn hs
  exact ⟨hapart, hchains, hranges, halike⟩

/-- A token that stands directly after what is before it. -/
def Changes.sampleToken (bytes : Nat) (stamp : Stamp) : Child Green :=
  ⟨none, .node ⟨Words.wordSymbol, .zero, ⟨bytes, ⟨0, bytes⟩⟩, 0, true, false, false, false,
    false, 0, stamp⟩ []⟩

/-- A tree of two tokens of one byte, which do not depend on the generation, and a third token. -/
def Changes.sampleTree (generation bytes : Nat) : Tree where
  root := .node ⟨Words.documentSymbol, .zero, ⟨bytes + 2, ⟨0, bytes + 2⟩⟩, 0, true, false, false,
    false, false, 3, ⟨generation, []⟩⟩
    [sampleToken 1 ⟨0, [0]⟩, sampleToken 1 ⟨0, [1]⟩, sampleToken bytes ⟨generation, [2]⟩]
  grammar := ⟨0, "", 13, [], [], maxId_pos, Nat.zero_le maxId⟩
  includedRanges := [.document]

/-- Where the last of three tokens grew, the chains at the byte of the second stay alike. -/
theorem Tree.changedSpans_sound_last :
    (sampleTree 0 1).changedSpans (sampleTree 1 2) = [⟨⟨2, ⟨0, 2⟩⟩, ⟨4, ⟨0, 4⟩⟩⟩] ∧
      ((sampleTree 0 1).rootNode.chainAt 1).map Node.look =
        ((sampleTree 1 2).rootNode.chainAt 1).map Node.look := by
  have hshares : SharesStorage (sampleTree 0 1).rootNode (sampleTree 1 2).rootNode := by
    intro a ha b hb
    simp only [show (sampleTree 0 1).rootNode.below = [_, _, _, _] from rfl,
      show (sampleTree 1 2).rootNode.below = [_, _, _, _] from rfl, List.mem_cons, List.not_mem_nil,
      or_false] at ha hb
    -- the stamps of two nodes agree only for the first two tokens, which are the same
    rcases ha with rfl | rfl | rfl | rfl <;> rcases hb with rfl | rfl | rfl | rfl <;>
      first | exact fun _ => rfl | exact fun h => absurd h (by decide)
  have hold : (sampleTree 0 1).rootNode.Nested := by decide
  have hnew : (sampleTree 1 2).rootNode.Nested := by decide
  have hspans : (sampleTree 0 1).changedSpans (sampleTree 1 2) =
      [⟨⟨2, ⟨0, 2⟩⟩, ⟨4, ⟨0, 4⟩⟩⟩] := by decide +kernel
  obtain ⟨-, hchain, -⟩ := changedSpans_sound hold hnew hshares
  refine ⟨hspans, hchain 1 ?_⟩
  rw [hspans]
  decide

end Reparse
