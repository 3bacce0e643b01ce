import Reparse.Proofs.Origins

/-!
# Sessions

A program opens parsers, parses documents and edits trees, in any order and as often as it likes
(`World.Next`). Each call and each edit has a generation of its own. So the name of a node's storage says
which subtree it is, whatever tree the node is seen in, and where one subtree stands at several paths of a
tree, it is not void (`World.Reachable.kept`).
-/

namespace Reparse

/-! ## Edits -/

namespace Green

variable {generation : Nat}

mutual

/-- A node of an edited tree is one that was there before, at the same path, or it was made by the edit,
with its path in its name. -/
lemma Has.of_edit : ∀ {g : Green} {place : List Nat} {e : Edit} {path : List Nat} {k : Green},
    (g.edit generation place e).Has path k →
    g.Has path k ∨ k.label.stamp = ⟨generation, path.reverse ++ place⟩
  | node l cs, place, e, path, k, h => by
    rw [edit] at h
    split at h
    · exact .inl h
    · cases h with
      | self => exact .inr rfl
      | @child _ _ j c path _ hc hk =>
        rcases has_of_editChildren hc hk with ⟨c', hc', hk⟩ | hstamp
        · exact .inl (.child hc' hk)
        · refine .inr ?_
          rw [hstamp, Nat.zero_add, List.reverse_cons, List.append_assoc]
          rfl

/-- What a path leads to in edited children was there before, or has the stamp of its place. -/
lemma has_of_editChildren : ∀ {cs : List (Child Green)} {place : List Nat} {e : Edit}
    {insertion : Bool} {index : Nat} {left : Length} {j : Nat} {c : Child Green} {path : List Nat}
    {k : Green}, (editChildren generation place e insertion index left cs)[j]? = some c →
    c.node.Has path k → (∃ c' : Child Green, cs[j]? = some c' ∧ c'.node.Has path k) ∨
      k.label.stamp = ⟨generation, path.reverse ++ (index + j) :: place⟩
  | [], _, _, _, _, _, _, _, _, _, hc, _ => by cases hc
  | c₀ :: rest, place, e, insertion, index, left, j, c, path, k, hc, hk => by
    -- the first child is kept or edited, and the others come after it with greater numbers
    have hrest : ∀ {e : Edit} {insertion : Bool} {left : Length} {j : Nat},
        (editChildren generation place e insertion (index + 1) left rest)[j]? = some c →
        (∃ c', rest[j]? = some c' ∧ c'.node.Has path k) ∨
          k.label.stamp = ⟨generation, path.reverse ++ (index + (j + 1)) :: place⟩ := by
      intro e insertion left j hc
      rw [show index + (j + 1) = index + 1 + j by omega]
      exact has_of_editChildren hc hk
    have hfirst : ∀ {e : Edit}, c = ⟨c₀.field, c₀.node.edit generation (index :: place) e⟩ →
        (∃ c', (c₀ :: rest)[0]? = some c' ∧ c'.node.Has path k) ∨
          k.label.stamp = ⟨generation, path.reverse ++ (index + 0) :: place⟩ := by
      rintro e rfl
      rcases Has.of_edit hk with hk | hstamp
      · exact .inl ⟨c₀, rfl, hk⟩
      · exact .inr hstamp
    rw [editChildren] at hc
    split at hc
    · cases j with
      | zero => exact .inl ⟨c, hc, hk⟩
      | succ j => exact hrest hc
    split at hc
    · exact .inl ⟨c, hc, hk⟩
    split at hc
    · cases j with
      | zero => exact hfirst (Option.some.inj hc).symm
      | succ j => exact hrest hc
    · cases j with
      | zero => exact hfirst (Option.some.inj hc).symm
      | succ j => exact hrest hc

end

end Green

namespace C

open Item Green

/-! ## Programs -/

/-- What a program has come to: its parsers, as they are and as they were, and all trees that it was given
or has made by edits, each with a document. The next call or edit has the generation that comes next. -/
structure World where
  generation : Nat
  parsers : List (Parser Checkpoint)
  trees : List (Document × Tree)

namespace World

/-- What a program begins with. -/
def empty : World := ⟨0, [], []⟩

/-- What a program may do: open a parser, change its settings, parse a document with an old tree that
matches it or without one, or edit a tree as a document is edited. -/
inductive Next : World → World → Prop where
  | opened {w p} :
    p.language = some language → p.suspended = none → Next w { w with parsers := p :: w.parsers }
  | set {w p q} :
    p ∈ w.parsers → q.language = some language → (q.suspended = none ∨ q.suspended = p.suspended) →
    Next w { w with parsers := q :: w.parsers }
  | parsed {w p q d oldTree outside t} :
    p ∈ w.parsers → (∀ t ∈ oldTree, (d, t) ∈ w.trees) → d.bytes.length ≤ limit →
    p.parse outside w.generation d oldTree = (.ok t, q) →
    Next w ⟨w.generation + 1, q :: w.parsers, (d, t) :: w.trees⟩
  | failed {w p q d oldTree outside failure} :
    p ∈ w.parsers → (∀ t ∈ oldTree, (d, t) ∈ w.trees) → d.bytes.length ≤ limit →
    p.parse outside w.generation d oldTree = (.error failure, q) →
    Next w ⟨w.generation + 1, q :: w.parsers, w.trees⟩
  | edited {w d d' t e} :
    (d, t) ∈ w.trees → e.Rewrites d d' → d'.bytes.length ≤ limit →
    Next w ⟨w.generation + 1, w.parsers, (d', t.edit w.generation e) :: w.trees⟩

/-- Whether a program may come to a world. -/
def Reachable (w : World) : Prop := Relation.ReflTransGen Next empty w

/-- Whether a subtree stands in one of the trees. -/
def Stores (w : World) (g : Green) : Prop := ∃ d t path, (d, t) ∈ w.trees ∧ t.root.Has path g

/-- Whether a subtree was taken over from one of the trees. -/
def Lends (w : World) (g : Green) : Prop := g.label.hasError = false ∧ w.Stores g

/-- Whether the progress of a halted call holds no other subtrees. -/
def Suspends (w : World) (c : Suspended Checkpoint) : Prop :=
  ∃ s : State, s.Lands (fun _ => w.Lends) (.ofDocument c.document c.ranges) ∧
    c.progress = s.checkpoint (.ofDocument c.document c.ranges)

/-- What holds of every world that a program may come to. -/
structure Kept (w : World) : Prop where
  used : ∀ p ∈ w.parsers, Used False p
  suspends : ∀ p ∈ w.parsers, ∀ c ∈ p.suspended, w.Suspends c
  fits : ∀ d t, (d, t) ∈ w.trees → Matches False d t
  older : ∀ g, w.Stores g → g.label.stamp.generation < w.generation
  named : ∀ g h, w.Stores g → w.Stores h → g.label.stamp = h.label.stamp → g = h
  apart : ∀ d t, (d, t) ∈ w.trees → ∀ p q g h, t.root.Has p g → t.root.Has q h →
    g.label.stamp = h.label.stamp → p ≠ q → 0 < g.label.size.bytes

/-- Whether a tree is made of storage of the next generation and of subtrees of other trees. -/
structure Adds (w : World) (t : Tree) : Prop where
  origin : ∀ p g, t.root.Has p g → g.label.stamp.generation = w.generation ∨ w.Stores g
  unique : ∀ p q g h, t.root.Has p g → t.root.Has q h → g.label.stamp.generation = w.generation →
    g.label.stamp = h.label.stamp → p = q
  apart : ∀ p q g h, t.root.Has p g → t.root.Has q h → g.label.stamp = h.label.stamp → p ≠ q →
    0 < g.label.size.bytes

variable {w w' : World}

/-- What is suspended is still there if all that is stored is. -/
lemma Suspends.mono {c : Suspended Checkpoint} (hw : ∀ g, w.Stores g → w'.Stores g)
    (h : w.Suspends c) : w'.Suspends c := by
  obtain ⟨s, ⟨hcalls, htokens⟩, hc⟩ := h
  exact ⟨s, ⟨hcalls.mono fun _ g hg => ⟨hg.1, hw g hg.2⟩, htokens⟩, hc⟩

namespace Kept

variable {parsers : List (Parser Checkpoint)} {d : Document} {t : Tree}

/-- The parsers may be others, and a generation may be left out. -/
lemma update (h : w.Kept) {generation : Nat} (hle : w.generation ≤ generation)
    (hparsers : ∀ p ∈ parsers, Used False p ∧ ∀ c ∈ p.suspended, w.Suspends c) :
    Kept ⟨generation, parsers, w.trees⟩ where
  used p hp := (hparsers p hp).1
  suspends p hp := (hparsers p hp).2
  fits := h.fits
  older g hg := Nat.lt_of_lt_of_le (h.older g hg) hle
  named := h.named
  apart := h.apart

/-- A tree of the next generation is added. -/
lemma add (h : w.Kept) (hmatches : Matches False d t) (hadds : w.Adds t)
    (hparsers : ∀ p ∈ parsers, Used False p ∧ ∀ c ∈ p.suspended, w.Suspends c) :
    Kept ⟨w.generation + 1, parsers, (d, t) :: w.trees⟩ := by
  have hstores : ∀ g, Stores ⟨w.generation + 1, parsers, (d, t) :: w.trees⟩ g →
      w.Stores g ∨ g.label.stamp.generation = w.generation ∧ ∃ p, t.root.Has p g := by
    rintro g ⟨d', t', p, hmem, hg⟩
    cases hmem with
    | head =>
      rcases hadds.origin p g hg with hgen | hg'
      · exact .inr ⟨hgen, p, hg⟩
      · exact .inl hg'
    | tail _ hmem => exact .inl ⟨d', t', p, hmem, hg⟩
  refine ⟨fun p hp => (hparsers p hp).1, ?suspends, ?fits, ?older, ?named, ?apart⟩
  case suspends =>
    intro p hp c hc
    refine ((hparsers p hp).2 c hc).mono ?_
    rintro g ⟨d', t', p, hmem, hg⟩
    exact ⟨d', t', p, List.mem_cons_of_mem _ hmem, hg⟩
  case fits =>
    intro d' t' hmem
    cases hmem with
    | head => exact hmatches
    | tail _ hmem => exact h.fits d' t' hmem
  case older =>
    intro g hg
    rcases hstores g hg with hg | ⟨hgen, -⟩
    · exact Nat.lt_succ_of_lt (h.older g hg)
    · exact hgen ▸ Nat.lt_succ_self _
  case named =>
    intro g g' hg hg' heq
    rcases hstores g hg with hg | ⟨hgen, p, hp⟩
    · rcases hstores g' hg' with hg' | ⟨hgen', -⟩
      · exact h.named g g' hg hg' heq
      · have hlt := h.older g hg
        rw [heq, hgen'] at hlt
        exact absurd hlt (Nat.lt_irrefl _)
    · rcases hstores g' hg' with hg' | ⟨-, q, hq⟩
      · have hlt := h.older g' hg'
        rw [← heq, hgen] at hlt
        exact absurd hlt (Nat.lt_irrefl _)
      · obtain rfl := hadds.unique p q g g' hp hq hgen heq
        exact hp.unique hq
  case apart =>
    intro d' t' hmem
    cases hmem with
    | head => exact hadds.apart
    | tail _ hmem => exact h.apart d' t' hmem

/-- An edited tree is made of new storage where the edit touches it. -/
lemma adds_edit (h : w.Kept) (ht : (d, t) ∈ w.trees) (e : Edit) : w.Adds (t.edit w.generation e) := by
  have hedit : ∀ p g, (t.edit w.generation e).root.Has p g →
      t.root.Has p g ∨ g.label.stamp = ⟨w.generation, p.reverse⟩ := by
    intro p g hg
    have hg := @Has.of_edit _ _ [] _ _ _ hg
    rwa [List.append_nil] at hg
  have holder : ∀ p g, t.root.Has p g → g.label.stamp.generation ≠ w.generation := fun p g hg =>
    Nat.ne_of_lt (h.older g ⟨d, t, p, ht, hg⟩)
  have hunique : ∀ p q g k, (t.edit w.generation e).root.Has p g →
      (t.edit w.generation e).root.Has q k → g.label.stamp.generation = w.generation →
      g.label.stamp = k.label.stamp → p = q := by
    intro p q g k hg hk hgen heq
    rcases hedit p g hg with hg | hg
    · exact absurd hgen (holder p g hg)
    rcases hedit q k hk with hk | hk
    · exact absurd (heq ▸ hgen) (holder q k hk)
    rw [hg, hk] at heq
    exact List.reverse_inj.1 (congrArg Stamp.place heq)
  refine ⟨?_, hunique, ?_⟩
  · intro p g hg
    rcases hedit p g hg with hg | hg
    · exact .inr ⟨d, t, p, ht, hg⟩
    · exact .inl (congrArg Stamp.generation hg)
  · intro p q g k hg hk heq hne
    rcases hedit p g hg with hg' | hg'
    · rcases hedit q k hk with hk' | hk'
      · exact h.apart d t ht p q g k hg' hk' heq hne
      · have hgen : k.label.stamp.generation = w.generation := congrArg Stamp.generation hk'
        exact absurd (hunique q p k g hk hg hgen heq.symm).symm hne
    · exact absurd (hunique p q g k hg hk (congrArg Stamp.generation hg') heq) hne

section

variable {p q : Parser Checkpoint} {oldTree : Option Tree} {outside : Outside}

/-- A call takes over subtrees of the trees there are. -/
lemma lands (h : w.Kept) (hp : p ∈ w.parsers) (hold : ∀ t ∈ oldTree, (d, t) ∈ w.trees)
    (hd : d.bytes.length ≤ limit) {s : State}
    (hs : Steps (.ofDocument d p.includedRanges) (oldTree.filter (p.admits language)) (startOf p d) s) :
    s.Lands (fun _ => w.Lends) (.ofDocument d p.includedRanges) := by
  have hmem : ∀ t ∈ oldTree.filter (p.admits language), (d, t) ∈ w.trees := fun t ht =>
    hold t (Option.filter_eq_some_iff.1 ht).1
  have hstart : (startOf p d).Lands (fun _ => w.Lends) (.ofDocument d p.includedRanges) := by
    unfold startOf
    cases hc : p.suspended.filter (p.continues language d) with
    | none => exact .start _
    | some c =>
      obtain ⟨hsuspended, hcontinues⟩ := Option.filter_eq_some_iff.1 hc
      simp only [Parser.continues, Bool.and_eq_true, beq_iff_eq] at hcontinues
      obtain ⟨⟨-, rfl⟩, hranges⟩ := hcontinues
      obtain ⟨s, hlands, hprogress⟩ := h.suspends p hp c hsuspended
      rw [hranges] at hlands hprogress
      rw [Option.map_some, hprogress]
      exact hlands.restart
  induction hs with
  | refl => exact hstart
  | tail _ hl ih =>
    refine ih.leads hd (fun t ht => (h.fits d t (hmem t ht)).known.fits) ?_ hl
    rintro x g ⟨herror, t, ht, path, hg⟩
    exact ⟨herror, d, t, path, hmem t ht, has_iff.2 ⟨x, hg⟩⟩

/-- The tree of a call is made of new storage and of such subtrees. -/
lemma adds_parse (h : w.Kept) (hp : p ∈ w.parsers) (hold : ∀ t ∈ oldTree, (d, t) ∈ w.trees)
    (hd : d.bytes.length ≤ limit) (hparse : p.parse outside w.generation d oldTree = (.ok t, q)) :
    w.Adds t := by
  have hused := h.used p hp
  obtain ⟨e, items, hbuilds⟩ := hused.builds (fun t ht => h.fits d t (hold t ht)) hd (fun hf => hf.elim)
    hparse
  obtain ⟨s, hsteps, hblocks, htree⟩ := exists_of_parse hused.pursues.1 hparse
  have hlands := (h.lands hp hold hd hsteps).here (Source.endOfInput_le_limit hd p.includedRanges)
  rw [Draft.calls, State.blocks_here, hblocks] at hlands
  obtain ⟨hroot, hi, hmakes⟩ := makesAll_of_treeOf htree
  have hlends : ∀ m, Call.reuse m ∈ callsOf s.here.parts.reverse → w.Lends m := fun m hm => by
    obtain ⟨-, hm⟩ := hlands.exists_of_mem (List.mem_append_right _ hm)
    exact hm
  have hstores : ∀ m, w.Lends m → ∀ path k, m.Has path k → w.Stores k := by
    rintro m ⟨-, d', t', above, hmem, hm⟩ path k hk
    exact ⟨d', t', above ++ path, hmem, hm.append hk⟩
  have hclean : ∀ m, Call.reuse m ∈ callsOf s.here.parts.reverse → ∀ path k, m.Has path k →
      k.label.stamp.generation ≠ w.generation := fun m hm path k hk =>
    Nat.ne_of_lt (h.older k (hstores m (hlends m hm) path k hk))
  obtain ⟨root, grammar, ranges⟩ := t
  obtain ⟨l, cs⟩ := root
  -- a node is new, or stands in a subtree that was taken over
  have horigin : ∀ path k, (Green.node l cs).Has path k → k.label.stamp.generation = w.generation ∨
      path ≠ [] ∧ k.label.hasError = false ∧ w.Stores k := by
    intro path k hk
    cases path with
    | nil =>
      cases hk
      exact .inl (congrArg Stamp.generation hroot)
    | cons a path =>
      have hne := List.cons_ne_nil a path
      rcases hmakes.origin hk hne with ⟨-, -, -, -, -, -, -, hmade⟩ |
        ⟨above, below, ts, m, -, hm, habove, hbelow⟩
      · exact .inl hmade
      · have hm := hlends m hm.mem_callsOf
        obtain ⟨x, hx⟩ := has_iff.1 habove
        obtain ⟨y, hy⟩ := has_iff.1 hbelow
        exact .inr ⟨hne, ((hbuilds.reports.locate hx).1.locate hy).2 hm.1, hstores m hm _ _ hbelow⟩
  have hunique : ∀ a b g k, (Green.node l cs).Has a g → (Green.node l cs).Has b k →
      g.label.stamp.generation = w.generation → g.label.stamp = k.label.stamp → a = b := by
    have hbelow : ∀ a path k, (Green.node l cs).Has (a :: path) k → k.label.stamp ≠ ⟨w.generation, []⟩ := by
      intro a path k hk heq
      cases hk with
      | child hc hk =>
        obtain ⟨n, -, -, hn⟩ := (hmakes.stamps hclean).2 a _ path k hc hk (congrArg Stamp.generation heq)
        cases hn.symm.trans heq
    intro a b g k hg hk hgen heq
    cases hg with
    | self =>
      cases hk with
      | self => rfl
      | child hc hk => exact absurd (heq.symm.trans hroot) (hbelow _ _ _ (.child hc hk))
    | child hc hg =>
      cases hk with
      | self => exact absurd (heq.trans hroot) (hbelow _ _ _ (.child hc hg))
      | child hd hk =>
        obtain ⟨rfl, rfl⟩ := hmakes.inj hclean hc hg hd hk hgen heq
        rfl
  refine ⟨?_, hunique, ?_⟩
  · intro path k hk
    rcases horigin path k hk with hgen | ⟨-, -, hk⟩
    · exact .inl hgen
    · exact .inr hk
  · intro a b g k hg hk heq hne
    rcases horigin a g hg with hgen | ⟨hne', herror, -⟩
    · exact absurd (hunique a b g k hg hk hgen heq) hne
    · exact hbuilds.size_pos hd hg hne' herror

/-- What a call that gives no tree leaves holds such subtrees. -/
lemma suspends_parse (h : w.Kept) (hp : p ∈ w.parsers) (hold : ∀ t ∈ oldTree, (d, t) ∈ w.trees)
    (hd : d.bytes.length ≤ limit) {generation : Nat} {result : Except Failure Tree}
    (hparse : p.parse outside generation d oldTree = (result, q)) :
    ∀ c ∈ q.suspended, w.Suspends c := by
  rw [parse_eq (h.used p hp).pursues.1] at hparse
  generalize hr : engine generation (p.probes outside) (p.task outside language d oldTree)
    (.start p.timeout) = r at hparse
  obtain ⟨_ | c | _ | _, interrupt⟩ := r
  case halted =>
    obtain ⟨-, rfl⟩ := Prod.mk.inj hparse
    intro c' hc'
    obtain rfl := Option.some.inj hc'
    obtain ⟨s, hsteps, rfl⟩ := exists_of_halted (congrArg Prod.fst hr)
    exact ⟨s, h.lands hp hold hd hsteps, rfl⟩
  all_goals
    obtain ⟨-, rfl⟩ := Prod.mk.inj hparse
    exact fun _ hc => by cases hc

end

/-- What a program does keeps what holds of its world. -/
theorem next (h : w.Kept) (hw : w.Next w') : w'.Kept := by
  have hparsers : ∀ p ∈ w.parsers, Used False p ∧ ∀ c ∈ p.suspended, w.Suspends c := fun p hp =>
    ⟨h.used p hp, h.suspends p hp⟩
  have hcons : ∀ {q}, (Used False q ∧ ∀ c ∈ q.suspended, w.Suspends c) →
      ∀ p ∈ q :: w.parsers, Used False p ∧ ∀ c ∈ p.suspended, w.Suspends c := by
    intro q hq p hp
    cases hp with
    | head => exact hq
    | tail _ hp => exact hparsers p hp
  cases hw with
  | opened hl hs =>
    refine h.update (Nat.le_refl _) (hcons ⟨.new hl hs, fun c hc => ?_⟩)
    rw [hs] at hc
    cases hc
  | @set p q hp hl hs =>
    refine h.update (Nat.le_refl _) (hcons ⟨(h.used p hp).set hl hs, fun c hc => ?_⟩)
    rcases hs with hs | hs
    · rw [hs] at hc
      cases hc
    · rw [hs] at hc
      exact h.suspends p hp c hc
  | @parsed p q d oldTree outside t hp hold hd hparse =>
    have hmatches := fun t ht => h.fits d t (hold t ht)
    refine h.add (.parsed (h.used p hp) hmatches hd (fun hf => hf.elim) hparse)
      (h.adds_parse hp hold hd hparse) (hcons ⟨(h.used p hp).called hmatches hparse, ?_⟩)
    exact h.suspends_parse hp hold hd hparse
  | @failed p q d oldTree outside failure hp hold hd hparse =>
    have hmatches := fun t ht => h.fits d t (hold t ht)
    refine h.update (Nat.le_succ _) (hcons ⟨(h.used p hp).called hmatches hparse, ?_⟩)
    exact h.suspends_parse hp hold hd hparse
  | @edited d d' t e ht he hd' =>
    exact h.add ((h.fits d t ht).edited w.generation he hd') (h.adds_edit ht e) hparsers

end Kept

/-- It holds of every world that a program may come to. -/
theorem Reachable.kept (h : w.Reachable) : w.Kept := by
  induction h with
  | refl =>
    have hnone : ∀ g, ¬ empty.Stores g := fun g ⟨_, _, _, hmem, _⟩ => by cases hmem
    exact ⟨nofun, nofun, nofun, fun g hg => absurd hg (hnone g), fun g _ hg => absurd hg (hnone g), nofun⟩
  | tail _ hw ih => exact ih.next hw

end World

end C

end Reparse
