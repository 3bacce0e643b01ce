import Mathlib.Data.List.Find
import Reparse.Node.Lookup
import Reparse.Proofs.Cursors
import Reparse.Proofs.Losslessness
import Reparse.Proofs.Takeovers

/-!
# Spanning nodes

The search for the smallest node that spans a stretch goes down to one child and never comes back. Where
nodes nest, at most one child spans a stretch that is not empty, and no node below the others does, so the
search ends at the smallest node (`Node.Nested.isSmallest_lastSpanning`). In a tree of a document, rows
and columns are ordered as the bytes are (`Source.pointAt_lt_iff`), and the search by points makes the
choices of the search by bytes (`C.parse_descendants`).
-/

namespace Reparse

namespace Node

/-- Whether a node spans the bytes from `s` to `e`. -/
def Covers (n : Node) (s e : Nat) : Prop := n.startByte ≤ s ∧ e ≤ n.stopByte

/-- Whether `m` is the smallest of the nodes at and below `n` that are wanted and span some bytes: the
others are `m` or above it. The node `n` itself takes the place of such a node if there is none. -/
def IsSmallest (n : Node) (wanted : Node → Bool) (s e : Nat) (m : Node) : Prop :=
  ∃ path, n.descend? path = some m ∧ (path = [] ∨ wanted m = true ∧ m.Covers s e) ∧
    ∀ path' k, n.descend? path' = some k → wanted k = true → k.Covers s e → path' <+: path

variable {n c : Node} {s e : Nat}

/-- What is below a node below another one is below that one. -/
lemma mem_below_trans {r m n : Node} (hm : m ∈ r.below) (hn : n ∈ m.below) : n ∈ r.below := by
  obtain ⟨path, hpath⟩ := mem_below_iff.1 hm
  obtain ⟨path', hpath'⟩ := mem_below_iff.1 hn
  exact mem_below_iff.2 ⟨path ++ path', by rw [descend?_append, hpath, Option.bind_some, hpath']⟩

/-- A node at the end of a path is inside the child through which the path leads. -/
lemma Nested.inside_descend {i : Nat} {path : List Nat} {k : Node} (h : n.Nested)
    (hk : n.descend? (i :: path) = some k) :
    ∃ c, n.child? i = some c ∧ c.descend? path = some k ∧
      c.startByte ≤ k.startByte ∧ k.stopByte ≤ c.stopByte := by
  obtain ⟨c, hc, hk⟩ := Option.bind_eq_some_iff.1 hk
  refine ⟨c, hc, hk, ?_⟩
  have hmem := mem_below_iff.2 ⟨path, hk⟩
  rw [below_eq_inner] at hmem
  rcases List.mem_cons.1 hmem with rfl | hmem
  · exact ⟨Nat.le_refl _, Nat.le_refl _⟩
  · exact (h.child (List.mem_of_getElem? hc)).inside_below hmem

/-- The child that the search goes down to spans the stretch. -/
lemma covers_of_spanningChild? (h : spanningChild? (·.bytes) s e n = some c) :
    c ∈ n.children ∧ c.Covers s e := by
  obtain ⟨hfind, hstart⟩ := Option.filter_eq_some_iff.1 h
  have hlast := List.find?_some hfind
  rw [endsBefore, Bool.not_or, Bool.and_eq_true, Bool.not_eq_true', decide_eq_false_iff_not,
    Nat.not_lt] at hlast
  exact ⟨List.mem_of_find?_eq_some hfind, of_decide_eq_true hstart, hlast.1⟩

/-- Where children stand apart, the search goes down to the only child that spans the stretch. -/
lemma Nested.spanningChild?_eq {i : Nat} (h : n.Nested) (hse : s < e) (hc : n.child? i = some c)
    (hcovers : c.Covers s e) :
    spanningChild? (·.bytes) s e n = some c ∧
      ∀ j k, n.child? j = some k → k.Covers s e → j = i := by
  obtain ⟨hstart, hstop⟩ := hcovers
  have hi : n.children[i]? = some c := hc
  constructor
  · have hends : endsBefore s e c.startByte c.stopByte = false := by
      rw [endsBefore, decide_eq_false (by omega), if_neg (by omega), decide_eq_true (by omega)]
      rfl
    have hfind : n.children.find? (fun c => !endsBefore s e c.startByte c.stopByte) = some c := by
      refine List.find?_eq_some_iff_getElem.2 ⟨by rw [hends]; rfl, ?_⟩
      obtain ⟨hlt, hget⟩ := List.getElem?_eq_some_iff.1 hi
      refine ⟨i, hlt, hget, fun j hj => ?_⟩
      -- a child before this one stops where this one starts, and so before the end of the stretch
      have hle := rel_of_pairwise h.apart (List.getElem?_eq_getElem (Nat.lt_trans hj hlt)) hi hj
      rw [endsBefore, decide_eq_true (by omega)]
      rfl
    exact Option.filter_eq_some_iff.2 ⟨hfind, decide_eq_true hstart⟩
  · rintro j k hk ⟨hkstart, hkstop⟩
    exact eq_of_pairwise h.apart hk hi (by omega) (by omega)

/-- Of nodes that nest, the search for a stretch that is not empty gives the smallest. If it meets none
that is wanted, it gives the one that it was given. -/
lemma Nested.lastSpanning_eq (wanted : Node → Bool) (hse : s < e) {levels : Nat} (best : Node)
    (h : n.Nested) (hlevels : n.green.depth ≤ levels) :
    (lastSpanning (·.bytes) wanted s e levels best n = best ∧ ∀ i path k,
      n.descend? (i :: path) = some k → wanted k = true → ¬ k.Covers s e) ∨
    ∃ i path m, lastSpanning (·.bytes) wanted s e levels best n = m ∧
      n.descend? (i :: path) = some m ∧ wanted m = true ∧ m.Covers s e ∧
      ∀ j path' k, n.descend? (j :: path') = some k → wanted k = true → k.Covers s e →
        j :: path' <+: i :: path := by
  induction levels generalizing n best with
  | zero =>
    refine .inl ⟨rfl, fun i path k hk _ _ => ?_⟩
    obtain ⟨c, hc, -⟩ := Option.bind_eq_some_iff.1 hk
    have := depth_child_lt (List.mem_of_getElem? hc)
    omega
  | succ levels ih =>
    rw [lastSpanning]
    cases hchild : spanningChild? (·.bytes) s e n with
    | none =>
      refine .inl ⟨rfl, fun i path k hk _ hcovers => ?_⟩
      obtain ⟨c, hc, -, hstart, hstop⟩ := h.inside_descend hk
      have hcc : c.Covers s e := ⟨Nat.le_trans hstart hcovers.1, Nat.le_trans hcovers.2 hstop⟩
      rw [(h.spanningChild?_eq hse hc hcc).1] at hchild
      cases hchild
    | some c =>
      obtain ⟨hmem, hcovers⟩ := covers_of_spanningChild? hchild
      obtain ⟨i, hi⟩ := List.getElem?_of_mem hmem
      have hdescend : ∀ path, n.descend? (i :: path) = c.descend? path := by
        intro path
        rw [descend?, child?, hi, Option.bind_some]
      -- every spanning node is below the child that the search goes down to
      have hthrough : ∀ {j path' k}, n.descend? (j :: path') = some k → k.Covers s e →
          j = i ∧ c.descend? path' = some k := by
        intro j path' k hk hcov
        obtain ⟨c', hc', -, hstart, hstop⟩ := h.inside_descend hk
        obtain rfl := (h.spanningChild?_eq hse hi hcovers).2 j c' hc'
          ⟨Nat.le_trans hstart hcov.1, Nat.le_trans hcov.2 hstop⟩
        exact ⟨rfl, by rw [← hdescend, hk]⟩
      have hdepth := depth_child_lt hmem
      dsimp only
      rcases @ih c (if wanted c then c else best) (h.child hmem) (by omega) with
        ⟨heq, hnone⟩ | ⟨j, path, m, heq, hm, hw, hcov, hsmall⟩
      · rw [heq]
        by_cases hw : wanted c = true
        · refine .inr ⟨i, [], c, if_pos hw, hdescend [], hw, hcovers, ?_⟩
          intro j path' k hk hwk hcov
          obtain ⟨rfl, hk⟩ := hthrough hk hcov
          cases path' with
          | nil => exact List.prefix_refl _
          | cons j' path' => exact absurd hcov (hnone j' path' k hk hwk)
        · refine .inl ⟨if_neg hw, fun j path' k hk hwk hcov => ?_⟩
          obtain ⟨rfl, hk⟩ := hthrough hk hcov
          cases path' with
          | nil =>
            obtain rfl := Option.some.inj hk
            exact hw hwk
          | cons j' path' => exact hnone j' path' k hk hwk hcov
      · refine .inr ⟨i, j :: path, m, heq, by rw [hdescend, hm], hw, hcov, ?_⟩
        intro j' path' k hk hwk hcov
        obtain ⟨rfl, hk⟩ := hthrough hk hcov
        cases path' with
        | nil => exact (List.prefix_cons_inj _).2 List.nil_prefix
        | cons j' path' => exact (List.prefix_cons_inj _).2 (hsmall j' path' k hk hwk hcov)

/-- Of nodes that nest, the search for a stretch that is not empty gives the smallest that spans it. -/
theorem Nested.isSmallest_lastSpanning (h : n.Nested) (wanted : Node → Bool) (hse : s < e) :
    ∃ m, smallestSpanning? (·.bytes) wanted n s e = some m ∧ n.IsSmallest wanted s e m := by
  refine ⟨_, if_neg (by omega), ?_⟩
  rcases h.lastSpanning_eq wanted hse n (Nat.le_refl _) with
    ⟨heq, hnone⟩ | ⟨i, path, m, rfl, hm, hw, hcov, hsmall⟩
  · refine ⟨[], by rw [heq]; rfl, .inl rfl, fun path' k hk hwk hcov => ?_⟩
    cases path' with
    | nil => exact List.prefix_refl _
    | cons j path' => exact absurd hcov (hnone j path' k hk hwk)
  · refine ⟨i :: path, hm, .inr ⟨hw, hcov⟩, fun path' k hk hwk hcov' => ?_⟩
    cases path' with
    | nil => exact List.nil_prefix
    | cons j path' => exact hsmall j path' k hk hwk hcov'

end Node

/-! ## Rows and columns in the order of bytes -/

namespace Point

/-- No two points come before each other. -/
lemma lt_asymm {p q : Point} (h : p < q) : ¬ q < p := by
  have h : p.row < q.row ∨ p.row = q.row ∧ p.column < q.column := h
  intro (h' : q.row < p.row ∨ q.row = p.row ∧ q.column < p.column)
  omega

/-- A point comes no later than another one if it comes before it or is the same. -/
lemma le_iff {p q : Point} : p ≤ q ↔ p < q ∨ p = q := by
  show p.row < q.row ∨ p.row = q.row ∧ p.column ≤ q.column ↔
    (p.row < q.row ∨ p.row = q.row ∧ p.column < q.column) ∨ p = q
  rw [Point.mk.injEq]
  omega

end Point

namespace Source

variable {source : Source}

/-- If the first line starts with the text, then a later byte has a later point. -/
lemma pointAt_lt (h : source.lineStarts.head? = some 0) {x y : Nat} (hxy : x < y) :
    source.pointAt x < source.pointAt y := by
  obtain ⟨rest, hrest⟩ := List.head?_eq_some_iff.1 h
  have hne : ∀ z, source.lineStarts.takeWhile (· ≤ z) ≠ [] := by
    intro z
    rw [hrest, List.takeWhile_cons_of_pos (by simp)]
    exact List.cons_ne_nil _ _
  -- the lines that start up to the one byte are the first of those that start up to the other
  have hlines : source.lineStarts.takeWhile (· ≤ x) <+: source.lineStarts.takeWhile (· ≤ y) := by
    have hall : (source.lineStarts.takeWhile (· ≤ y)).takeWhile (· ≤ x) =
        source.lineStarts.takeWhile (· ≤ x) := by
      rw [List.takeWhile_takeWhile]
      congr 1
      funext l
      simp only [decide_eq_true_eq, decide_eq_decide]
      omega
    rw [← hall]
    exact List.takeWhile_prefix _
  obtain ⟨later, hlater⟩ := hlines
  have hx := List.length_pos_of_ne_nil (hne x)
  have hrow : ∀ z, (source.pointAt z).row = (source.lineStarts.takeWhile (· ≤ z)).length - 1 :=
    fun _ => rfl
  cases later with
  | nil =>
    rw [List.append_nil] at hlater
    have hlast := List.mem_takeWhile_imp (p := fun l => decide (l ≤ x)) (List.getLast_mem (hne x))
    have hle := of_decide_eq_true hlast
    have hcolumn : ∀ z, source.lineStarts.takeWhile (· ≤ x) = source.lineStarts.takeWhile (· ≤ z) →
        (source.pointAt z).column = z - (source.lineStarts.takeWhile (· ≤ x)).getLast (hne x) := by
      intro z hz
      unfold pointAt
      dsimp only
      rw [← hz, List.getLast?_eq_getLast_of_ne_nil (hne x), Option.getD_some]
    refine .inr ⟨by rw [hrow, hrow, hlater], ?_⟩
    rw [hcolumn x rfl, hcolumn y hlater]
    omega
  | cons l later =>
    refine .inl ?_
    rw [hrow, hrow, ← hlater, List.length_append, List.length_cons]
    omega

/-- Points of a source are ordered as its bytes. -/
lemma pointAt_lt_iff (h : source.lineStarts.head? = some 0) {x y : Nat} :
    source.pointAt x < source.pointAt y ↔ x < y := by
  constructor
  · intro hlt
    rcases Nat.lt_trichotomy x y with hxy | rfl | hyx
    · exact hxy
    · exact absurd hlt (Point.lt_asymm hlt)
    · exact absurd hlt (Point.lt_asymm (pointAt_lt h hyx))
  · exact pointAt_lt h

/-- Different bytes of a source have different points. -/
lemma pointAt_inj (h : source.lineStarts.head? = some 0) {x y : Nat} :
    source.pointAt x = source.pointAt y ↔ x = y := by
  constructor
  · intro heq
    have hlt : ¬ source.pointAt x < source.pointAt y := by
      rw [heq]
      exact fun hlt => Point.lt_asymm hlt hlt
    have hgt : ¬ source.pointAt y < source.pointAt x := by
      rw [heq]
      exact fun hlt => Point.lt_asymm hlt hlt
    rw [pointAt_lt_iff h] at hlt hgt
    omega
  · exact congrArg _

/-- Points of a source are ordered as its bytes, also where they are the same. -/
lemma pointAt_le_iff (h : source.lineStarts.head? = some 0) {x y : Nat} :
    source.pointAt x ≤ source.pointAt y ↔ x ≤ y := by
  rw [Point.le_iff, pointAt_lt_iff h, pointAt_inj h]
  omega

end Source

namespace Node

variable {n : Node} {source : Source} {s e : Nat}

/-- Where rows and columns are those of the bytes, the search by points goes down to the child to which
the search by bytes does. -/
lemma spanningChild?_pointAt (h : source.lineStarts.head? = some 0)
    (hn : ∀ c ∈ n.children, c.start = source.positionAt c.startByte ∧ c.stop = source.positionAt c.stopByte) :
    spanningChild? (·.extent) (source.pointAt s) (source.pointAt e) n =
      spanningChild? (·.bytes) s e n := by
  have hends : ∀ c ∈ n.children, (!endsBefore (source.pointAt s) (source.pointAt e)
      c.start.extent c.stop.extent) = !endsBefore s e c.start.bytes c.stop.bytes := by
    intro c hc
    rw [(hn c hc).1, (hn c hc).2]
    unfold endsBefore Source.positionAt
    simp only [Source.pointAt_lt_iff h, Source.pointAt_le_iff h, Source.pointAt_inj h]
  unfold spanningChild?
  have hfind := List.find?_congr hends
  dsimp only at hfind ⊢
  rw [hfind]
  cases hc : n.children.find? fun c => !endsBefore s e c.start.bytes c.stop.bytes with
  | none => rfl
  | some c =>
    have hstart := (hn c (List.mem_of_find?_eq_some hc)).1
    have hle : c.start.extent ≤ source.pointAt s ↔ c.start.bytes ≤ s := by
      rw [hstart]
      exact Source.pointAt_le_iff h
    simp only [Option.filter_some, hle]

/-- The search by points is the search by bytes. -/
lemma lastSpanning_pointAt (wanted : Node → Bool) (h : source.lineStarts.head? = some 0) {levels : Nat}
    (best : Node)
    (hn : ∀ c ∈ n.below, c.start = source.positionAt c.startByte ∧ c.stop = source.positionAt c.stopByte) :
    lastSpanning (·.extent) wanted (source.pointAt s) (source.pointAt e) levels best n =
      lastSpanning (·.bytes) wanted s e levels best n := by
  induction levels generalizing n best with
  | zero => rfl
  | succ levels ih =>
    have hchildren : ∀ c ∈ n.children, ∀ m ∈ c.below, m ∈ n.below := fun c hc m hm =>
      mem_below_of_mem_inner (mem_inner_of_child hc hm)
    rw [lastSpanning, lastSpanning, spanningChild?_pointAt h fun c hc =>
      hn c (hchildren c hc c c.mem_below_self)]
    cases hc : spanningChild? (·.bytes) s e n with
    | none => rfl
    | some c => exact ih _ fun m hm => hn m (hchildren c (covers_of_spanningChild? hc).1 m hm)

/-- A search by points finds what the search by their bytes does. -/
lemma smallestSpanning?_pointAt (wanted : Node → Bool) (h : source.lineStarts.head? = some 0)
    (hn : ∀ c ∈ n.below, c.start = source.positionAt c.startByte ∧ c.stop = source.positionAt c.stopByte) :
    smallestSpanning? (·.extent) wanted n (source.pointAt s) (source.pointAt e) =
      smallestSpanning? (·.bytes) wanted n s e := by
  unfold smallestSpanning?
  rw [lastSpanning_pointAt wanted h n hn]
  simp only [Source.pointAt_lt_iff h]

end Node

namespace C

/-- In the tree of a parse, the search from a node for a stretch that is not empty gives the smallest
node that spans it, or the smallest of the named ones; an inverted stretch has no such node; and the search
by the points of two bytes gives what the search by the bytes does. -/
theorem parse_descendants {p q : Parser Checkpoint} {d : Document} {oldTree : Option Tree}
    {outside : Outside} {generation : Nat} {t : Tree} {path : List Nat} {n : Node} (h : Used False p)
    (hold : ∀ t ∈ oldTree, Matches False d t) (hd : d.bytes.length ≤ limit)
    (hp : p.parse outside generation d oldTree = (.ok t, q)) (hn : t.rootNode.descend? path = some n) :
    (∀ s e, s < e →
      (∃ m, n.descendantForBytes? s e = some m ∧ n.IsSmallest (fun _ => true) s e m) ∧
      ∃ m, n.namedDescendantForBytes? s e = some m ∧ n.IsSmallest (·.isNamed) s e m) ∧
    (∀ s e, e < s → n.descendantForBytes? s e = none ∧ n.namedDescendantForBytes? s e = none) ∧
    ∀ s e, s ≤ e → e ≤ d.bytes.length →
      let source := Source.ofDocument d p.includedRanges
      n.descendantForPoints? (source.pointAt s) (source.pointAt e) = n.descendantForBytes? s e ∧
        n.namedDescendantForPoints? (source.pointAt s) (source.pointAt e) =
          n.namedDescendantForBytes? s e := by
  have hsituated := parse_situated h hold hd hp
  have hbelow : ∀ m ∈ n.below, m ∈ t.rootNode.below :=
    fun _ hm => Node.mem_below_trans (Node.mem_below_iff.2 ⟨path, hn⟩) hm
  have hnested : n.Nested := fun m hm => hsituated.nested m (hbelow m hm)
  have hpoints := fun m hm => hsituated.coordinates m (hbelow m hm)
  refine ⟨fun s e hse => ⟨?_, ?_⟩, fun s e hes => ⟨if_pos hes, if_pos hes⟩, fun s e _ _ => ⟨?_, ?_⟩⟩
  · exact hnested.isSmallest_lastSpanning _ hse
  · exact hnested.isSmallest_lastSpanning _ hse
  · exact Node.smallestSpanning?_pointAt _ rfl hpoints
  · exact Node.smallestSpanning?_pointAt _ rfl hpoints

/-- In the tree of `x;`, the word is the smallest node that spans its byte. -/
theorem parse_descendants_statement :
    ∃ t q, plainParser.parse stillWorld 0 ⟨[120, 59], .utf8⟩ none = (.ok t, q) ∧
      (∃ m, t.rootNode.descendantForBytes? 0 1 = some m ∧
        t.rootNode.IsSmallest (fun _ => true) 0 1 m) ∧
      t.rootNode.descendantForBytes? 1 0 = none := by
  obtain ⟨-, -, t, -, -, -, hp⟩ := @parse_of_neverFires plainParser stillWorld ⟨[120, 59], .utf8⟩ 0
    rfl neverFires_plainParser
  have hused : Used False plainParser := .new rfl rfl
  obtain ⟨hsmallest, hnone, -⟩ := @parse_descendants _ _ _ none _ _ _ [] _ hused
    (fun _ ht => by cases ht) (by decide) hp rfl
  exact ⟨t, _, hp, (hsmallest 0 1 (by decide)).1, (hnone 1 0 (by decide)).1⟩

end C

end Reparse
