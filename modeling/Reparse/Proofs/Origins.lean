import Reparse.Proofs.Cursors
import Reparse.Proofs.Iterations
import Reparse.Proofs.Takeovers

/-!
# Origins

Which item each node of a tree was made of. A node at a path of child numbers (`Green.Has`) was made of
the item at that path (`Item.At`), or stands in a subtree that was taken over (`MakesAll.origin`). The
nodes that a builder makes are numbered, so that no two of them have one storage (`MakesAll.inj`). A
tree of tokens in order tells where the tokens of the item of a node stand (`exists_at_of_locate`).
-/

namespace Reparse

/-! ## Nodes at paths -/

namespace Green

/-- Whether a path of child numbers leads from a tree to a subtree. -/
inductive Has : Green → List Nat → Green → Prop where
  | self {g} : Has g [] g
  | child {l cs i c path k} : cs[i]? = some c → Has c.node path k → Has (node l cs) (i :: path) k

namespace Has

variable {g k h : Green} {path rest : List Nat}

/-- A path leads to one subtree only. -/
lemma unique (hk : g.Has path k) (hh : g.Has path h) : k = h := by
  induction hk with
  | self =>
    cases hh
    rfl
  | child hc _ ih =>
    cases hh with
    | child hc' hh =>
      obtain rfl := Option.some.inj (hc.symm.trans hc')
      exact ih hh

/-- Paths may be followed in two parts. -/
lemma append (hk : g.Has path k) (hh : k.Has rest h) : g.Has (path ++ rest) h := by
  induction hk with
  | self => exact hh
  | child hc _ ih => exact .child hc (ih hh)

/-- Each step of a path leads at least one level down. -/
lemma depth_le (hk : g.Has path k) : k.depth + path.length ≤ g.depth := by
  induction hk with
  | self => exact Nat.le_refl _
  | @child l cs i c path k hc _ ih =>
    have hle := depth_le_depthOfAll (List.mem_of_getElem? hc)
    rw [List.length_cons, depth]
    omega

/-- In a leaf all paths are the same. -/
lemma leaf {l : Label} {p q : List Nat} (hk : (node l []).Has p k) (hh : (node l []).Has q h) : p = q := by
  cases hk with
  | self =>
    cases hh with
    | self => rfl
    | child hc _ => cases hc
  | child hc _ => cases hc

end Has

/-- The trees that are placed are those that were given. -/
lemma map_snd_placed (x : Nat) (cs : List (Child Green)) : (placed x cs).map (·.2) = cs := by
  induction cs generalizing x with
  | nil => rfl
  | cons c cs ih => rw [placed, List.map_cons, ih]

/-- A path leads to a subtree if it leads to a place of it. -/
lemma has_iff {g k : Green} {path : List Nat} : g.Has path k ↔ ∃ x, g.locate? path = some (x, k) := by
  constructor
  · intro h
    induction h with
    | self => exact ⟨0, rfl⟩
    | @child l cs i c path k hc _ ih =>
      obtain ⟨x, hx⟩ := ih
      rw [← map_snd_placed 0 cs, List.getElem?_map] at hc
      obtain ⟨⟨y, c⟩, hy, rfl⟩ := Option.map_eq_some_iff.1 hc
      exact ⟨y + x, locate?_cons.2 ⟨y, c, x, hy, hx, rfl⟩⟩
  · rintro ⟨x, hx⟩
    induction path generalizing g x with
    | nil =>
      obtain ⟨-, rfl⟩ := Prod.mk.inj (Option.some.inj hx)
      exact .self
    | cons i path ih =>
      obtain ⟨y, c, z, hc, hz, -⟩ := locate?_cons.1 hx
      obtain ⟨l, cs⟩ := g
      refine .child ?_ (ih z hz)
      rw [← map_snd_placed 0 cs, List.getElem?_map]
      exact congrArg (Option.map Prod.snd) hc

section

variable {α : Type} {w : List α} {g k h : Green} {p q : List Nat} {x y : Nat}

/-- Two nodes whose bytes overlap are one above the other. -/
lemma Fits.prefix_of_overlap (hg : g.Fits w) (hk : g.locate? p = some (x, k))
    (hh : g.locate? q = some (y, h)) (hx : x < y + h.width) (hy : y < x + k.width) :
    p <+: q ∨ q <+: p := by
  induction p generalizing g w q x y with
  | nil => exact .inl List.nil_prefix
  | cons i p ih =>
    cases q with
    | nil => exact .inr List.nil_prefix
    | cons j q =>
      obtain ⟨u, c, x', hc, hk', rfl⟩ := locate?_cons.1 hk
      obtain ⟨v, d, y', hd, hh', rfl⟩ := locate?_cons.1 hh
      obtain ⟨l, cs⟩ := g
      obtain ⟨-, -, -, -, hs⟩ := hg
      obtain ⟨hcfits, -, -⟩ := HoldsAll.of_mem_placed (x := 0) hs (List.mem_of_getElem? hc)
      obtain ⟨hdfits, -, -⟩ := HoldsAll.of_mem_placed (x := 0) hs (List.mem_of_getElem? hd)
      obtain ⟨-, hkle⟩ := hcfits.locate hk'
      obtain ⟨-, hhle⟩ := hdfits.locate hh'
      obtain rfl : i = j := by
        apply eq_of_pairwise (pairwise_placed 0 cs).1 hc hd <;> dsimp only <;> omega
      obtain ⟨rfl, rfl⟩ := Prod.mk.inj (Option.some.inj (hc.symm.trans hd))
      rcases ih hcfits hk' hh' (by omega) (by omega) with hpre | hpre
      · exact .inl ((List.prefix_cons_inj i).2 hpre)
      · exact .inr ((List.prefix_cons_inj i).2 hpre)

/-- Of nodes that are not void and as deep as each other, only one stands at a byte. -/
lemma Fits.path_unique (hg : g.Fits w) (hk : g.locate? p = some (x, k))
    (hh : g.locate? q = some (x, h)) (hdepth : k.depth = h.depth) (hkpos : 0 < k.width)
    (hhpos : 0 < h.width) : p = q := by
  have hself : ∀ {p q : List Nat} {k h : Green}, g.locate? p = some (x, k) → g.locate? q = some (x, h) →
      k.depth = h.depth → p <+: q → p = q := by
    rintro p _ k h hk hh hdepth ⟨rest, rfl⟩
    rw [locate?_append hk] at hh
    obtain ⟨⟨y, h'⟩, hrest, heq⟩ := Option.map_eq_some_iff.1 hh
    obtain ⟨-, rfl⟩ := Prod.mk.inj heq
    have hle : h'.depth + rest.length ≤ k.depth := (has_iff.2 ⟨y, hrest⟩).depth_le
    have hdepth : k.depth = h'.depth := hdepth
    obtain rfl := List.length_eq_zero_iff.1 (show rest.length = 0 by omega)
    exact (List.append_nil p).symm
  rcases hg.prefix_of_overlap hk hh (by omega) (by omega) with hpre | hpre
  · exact hself hk hh hdepth hpre
  · exact (hself hh hk hdepth.symm hpre).symm

end

end Green

/-- A path that leads down nodes leads down their trees. -/
lemma Node.has_of_descend? {n m : Node} {path : List Nat} (h : n.descend? path = some m) :
    n.green.Has path m.green ∧ m.tree = n.tree := by
  induction path generalizing n with
  | nil =>
    obtain rfl := Option.some.inj h
    exact ⟨.self, rfl⟩
  | cons i path ih =>
    obtain ⟨c, hc, hm⟩ := Option.bind_eq_some_iff.1 h
    obtain ⟨hhas, htree⟩ := ih hm
    rw [child?_eq] at hc
    obtain ⟨⟨e, start⟩, he, rfl⟩ := Option.map_eq_some_iff.1 hc
    obtain ⟨t, ⟨l, cs⟩, start⟩ := n
    refine ⟨.child ?_ hhas, htree⟩
    have hmap := congrArg (Option.map Prod.fst) he
    rw [← List.getElem?_map, Green.map_fst_layOut] at hmap
    exact hmap

namespace C

open Item Green

namespace Item

/-! ## Items at paths -/

/-- Whether a path of numbers leads to an item in some items, which stands after the tokens `before`. -/
inductive At : List Item → List Nat → List Token → Item → Prop where
  | here {before i after} : At (before ++ i :: after) [before.length] (tokensOf before) i
  | inside {before f rule parts after path ts i} :
    At parts path ts i →
    At (before ++ Item.node f rule parts :: after) (before.length :: path) (tokensOf before ++ ts) i

namespace At

variable {is : List Item} {path : List Nat} {ts : List Token} {i : Item}

/-- The tokens before an item at a path are the first ones. -/
lemma tokensOf_eq (h : At is path ts i) : ∃ after, tokensOf is = ts ++ i.tokens ++ after := by
  induction h with
  | @here before i after => exact ⟨tokensOf after, by simp [tokensOf]⟩
  | @inside before f rule parts after path ts i _ ih =>
    obtain ⟨rest, hrest⟩ := ih
    exact ⟨rest ++ tokensOf after, by simp [tokensOf, Item.tokens, hrest]⟩

/-- What holds of the nodes of all items holds of those of the item at a path. -/
lemma each {P : Item → Prop} (h : At is path ts i) (he : EachAll P is) : i.Each P := by
  induction h with
  | here => exact (eachAll_append.1 he).2.1
  | inside _ ih => exact ih (eachAll_append.1 he).2.1.2.2

/-- A path to an item is not empty. -/
lemma ne_nil (h : At is path ts i) : path ≠ [] := by
  cases h <;> exact List.cons_ne_nil _ _

/-- A path leads to one item. -/
lemma unique {ts' : List Token} {i' : Item} (h : At is path ts i) (h' : At is path ts' i') :
    ts = ts' ∧ i = i' := by
  generalize hpath : path = path' at h'
  induction h generalizing ts' i' path' with
  | @here before i after =>
    generalize his : before ++ i :: after = is' at h'
    cases h' with
    | @here before' i' after' =>
      obtain ⟨rfl, htail⟩ := List.append_inj his (List.cons.inj hpath).1
      exact ⟨rfl, (List.cons.inj htail).1⟩
    | inside h' => exact absurd (List.cons.inj hpath).2.symm h'.ne_nil
  | @inside before f rule parts after path ts i h ih =>
    generalize his : before ++ .node f rule parts :: after = is' at h'
    cases h' with
    | here => exact absurd (List.cons.inj hpath).2 h.ne_nil
    | @inside before' f' rule' parts' after' path' ts' i' h' =>
      obtain ⟨hlength, hrest⟩ := List.cons.inj hpath
      obtain ⟨rfl, htail⟩ := List.append_inj his hlength
      obtain ⟨-, -, rfl⟩ := Item.node.inj (List.cons.inj htail).1
      obtain ⟨rfl, rfl⟩ := ih _ hrest h'
      exact ⟨rfl, rfl⟩

/-- An item stands among the others, or among the parts of the node above it. -/
lemma parent {k : Nat} (h : At is (path ++ [k]) ts i) :
    (path = [] ∧ ∃ before after, is = before ++ i :: after ∧ ts = tokensOf before) ∨
    ∃ ts' f rule before after, At is path ts' (.node f rule (before ++ i :: after)) ∧
      ts = ts' ++ tokensOf before := by
  generalize hpath : path ++ [k] = path' at h
  induction h generalizing path with
  | @here before i after =>
    obtain ⟨rfl, -⟩ := List.append_inj' (show path ++ [k] = [] ++ [before.length] from hpath) rfl
    exact .inl ⟨rfl, before, after, rfl, rfl⟩
  | @inside before f rule parts after path' ts i h ih =>
    refine .inr ?_
    cases path with
    | nil => exact absurd (List.cons.inj hpath).2.symm h.ne_nil
    | cons a path =>
      obtain ⟨rfl, hrest⟩ := List.cons.inj hpath
      rcases ih hrest with ⟨rfl, b, c, rfl, rfl⟩ | ⟨ts', f', rule', b, c, hparent, rfl⟩
      · exact ⟨_, f, rule, b, c, .here, rfl⟩
      · exact ⟨_, f', rule', b, c, .inside hparent, (List.append_assoc ..).symm⟩

/-- A subtree that was taken over is among the calls. -/
lemma mem_callsOf {g : Green} (h : At is path ts (.reused g)) : Call.reuse g ∈ callsOf is := by
  generalize hi : Item.reused g = i at h
  induction h with
  | here =>
    subst hi
    rw [callsOf_append]
    exact List.mem_append_right _ (List.mem_cons_self ..)
  | inside _ ih =>
    rw [callsOf_append, callsOf, Item.calls]
    refine List.mem_append_right _ (List.mem_append_left _ (List.mem_cons_of_mem _ ?_))
    exact List.mem_append_left _ (ih hi)

end At

/-! ## What a builder makes -/

mutual

/-- Whether a builder that has made `lo` nodes makes a tree of an item, and has made `hi` nodes then. -/
inductive Makes (generation : Nat) : Nat → Item → Green → Nat → Prop where
  | token {n f t l} :
    l.symbol = t.kind.symbol → l.stamp = ⟨generation, [n]⟩ →
    Makes generation n (.token f t) (.node l []) (n + 1)
  | missing {n f kind l} :
    l.symbol = kind.symbol → l.stamp = ⟨generation, [n]⟩ →
    Makes generation n (.missing f kind) (.node l []) (n + 1)
  | reused {n g} : Makes generation n (.reused g) g n
  | node {lo hi f rule parts l cs} :
    MakesAll generation lo parts cs hi → l.symbol = rule.symbol → l.stamp = ⟨generation, [hi]⟩ →
    Makes generation lo (.node f rule parts) (.node l cs) (hi + 1)

/-- The same of several items. -/
inductive MakesAll (generation : Nat) : Nat → List Item → List (Child Green) → Nat → Prop where
  | nil {n} : MakesAll generation n [] [] n
  | cons {lo mid hi i c is cs} :
    Makes generation lo i c.node mid → MakesAll generation mid is cs hi →
    MakesAll generation lo (i :: is) (c :: cs) hi

end

mutual

/-- A builder makes a tree of an item. -/
lemma addTo_makes (s : Source) : ∀ (i : Item) (b : Builder), ∃ made c position,
    addTo s b i = .ok { b with made := made, children := c :: b.children, position := position } ∧
      Makes b.generation b.made i c.node made
  | token field t, b => ⟨_, _, _, rfl, .token rfl rfl⟩
  | missing field kind, b => ⟨_, _, _, rfl, .missing rfl rfl⟩
  | reused g, b => ⟨_, _, _, rfl, .reused⟩
  | node field rule parts, b => by
    obtain ⟨made, cs, position, hadd, hmakes⟩ :=
      addAllTo_makes s parts (b.startNode rule.symbol (field.map Field.id))
    refine ⟨_, _, position, by rw [addTo, hadd]; rfl, .node ?_ rfl rfl⟩
    have hchildren : (cs.reverse ++ (b.startNode rule.symbol (field.map Field.id)).children).reverse = cs := by
      simp [Builder.startNode]
    rw [hchildren]
    exact hmakes

/-- A builder makes the trees of items, and adds them to the open node. -/
lemma addAllTo_makes (s : Source) : ∀ (is : List Item) (b : Builder), ∃ made cs position,
    addAllTo s b is =
        .ok { b with made := made, children := cs.reverse ++ b.children, position := position } ∧
      MakesAll b.generation b.made is cs made
  | [], b => ⟨b.made, [], b.position, rfl, .nil⟩
  | i :: rest, b => by
    obtain ⟨made, c, position, hadd, hmakes⟩ := addTo_makes s i b
    obtain ⟨made', cs, position', hadd', hmakes'⟩ := addAllTo_makes s rest
      { b with made := made, children := c :: b.children, position := position }
    refine ⟨made', c :: cs, position', ?_, .cons hmakes hmakes'⟩
    rw [addAllTo, hadd, Except.bind, hadd']
    simp

end

/-- The tree of a document has a root of its own over what is made of the items. -/
lemma makesAll_of_treeOf {s : Source} {generation : Nat} {items : List Item} {t : Tree}
    (h : treeOf s generation items = .ok t) : t.root.label.stamp = ⟨generation, []⟩ ∧
      ∃ hi, MakesAll generation 0 items t.root.children hi := by
  obtain ⟨made, c, position, hadd, hmakes⟩ :=
    addTo_makes s (.node none .document items) (.new grammar generation)
  rw [treeOf, hadd] at h
  obtain rfl := Except.ok.inj h
  obtain ⟨f, g⟩ := c
  cases hmakes with
  | node hall _ _ => exact ⟨rfl, _, hall⟩

section

variable {generation lo hi : Nat}

mutual

/-- The numbers of the nodes that are made go up to those of the nodes that are made next. -/
lemma Makes.stamps : ∀ {lo hi i g}, Makes generation lo i g hi →
    (∀ m, Call.reuse m ∈ i.calls → ∀ q k, m.Has q k → k.label.stamp.generation ≠ generation) →
    lo ≤ hi ∧ ∀ q k, g.Has q k → k.label.stamp.generation = generation →
      ∃ n, lo ≤ n ∧ n < hi ∧ k.label.stamp = ⟨generation, [n]⟩
  | _, _, _, _, .token _ hstamp, _ => by
    refine ⟨Nat.le_succ _, fun q k hk _ => ?_⟩
    cases hk with
    | self => exact ⟨_, Nat.le_refl _, Nat.lt_succ_self _, hstamp⟩
    | child hc _ => cases hc
  | _, _, _, _, .missing _ hstamp, _ => by
    refine ⟨Nat.le_succ _, fun q k hk _ => ?_⟩
    cases hk with
    | self => exact ⟨_, Nat.le_refl _, Nat.lt_succ_self _, hstamp⟩
    | child hc _ => cases hc
  | _, _, _, _, .reused, hclean =>
    ⟨Nat.le_refl _, fun q k hk hgen => absurd hgen (hclean _ (List.mem_singleton_self _) q k hk)⟩
  | _, _, _, _, .node hall _ hstamp, hclean => by
    obtain ⟨hle, hstamps⟩ := hall.stamps fun m hm =>
      hclean m (List.mem_cons_of_mem _ (List.mem_append_left _ hm))
    refine ⟨by omega, fun q k hk hgen => ?_⟩
    cases hk with
    | self => exact ⟨_, hle, Nat.lt_succ_self _, hstamp⟩
    | child hc hk =>
      obtain ⟨n, hlo, hhi, hn⟩ := hstamps _ _ _ _ hc hk hgen
      exact ⟨n, hlo, by omega, hn⟩

/-- The stamps of the nodes that are made are those between the first and the last one, in the order of the
children. -/
lemma MakesAll.stamps : ∀ {lo hi is cs}, MakesAll generation lo is cs hi →
    (∀ m, Call.reuse m ∈ callsOf is → ∀ q k, m.Has q k → k.label.stamp.generation ≠ generation) →
    lo ≤ hi ∧ ∀ (j : Nat) c q k, cs[j]? = some c → c.node.Has q k →
      k.label.stamp.generation = generation →
      ∃ n, lo ≤ n ∧ n < hi ∧ k.label.stamp = ⟨generation, [n]⟩
  | _, _, _, _, .nil, _ => ⟨Nat.le_refl _, nofun⟩
  | _, _, _, _, .cons h hs, hclean => by
    obtain ⟨hle, hstamps⟩ := h.stamps fun m hm => hclean m (List.mem_append_left _ hm)
    obtain ⟨hle', hstamps'⟩ := hs.stamps fun m hm => hclean m (List.mem_append_right _ hm)
    refine ⟨Nat.le_trans hle hle', fun j c q k hc hk hgen => ?_⟩
    cases j with
    | zero =>
      obtain rfl := Option.some.inj hc
      obtain ⟨n, hlo, hhi, hn⟩ := hstamps q k hk hgen
      exact ⟨n, hlo, by omega, hn⟩
    | succ j =>
      obtain ⟨n, hlo, hhi, hn⟩ := hstamps' j c q k hc hk hgen
      exact ⟨n, by omega, hhi, hn⟩

end

mutual

/-- No two nodes that are made have one storage. -/
lemma Makes.inj : ∀ {lo hi i g p q k h}, Makes generation lo i g hi →
    (∀ m, Call.reuse m ∈ i.calls → ∀ q k, m.Has q k → k.label.stamp.generation ≠ generation) →
    g.Has p k → g.Has q h → k.label.stamp.generation = generation → k.label.stamp = h.label.stamp →
    p = q
  | _, _, _, _, _, _, _, _, .token _ _, _, hk, hh, _, _ => hk.leaf hh
  | _, _, _, _, _, _, _, _, .missing _ _, _, hk, hh, _, _ => hk.leaf hh
  | _, _, _, _, p, _, k, _, .reused, hclean, hk, _, hgen, _ =>
    absurd hgen (hclean _ (List.mem_singleton_self _) p k hk)
  | _, _, _, _, _, _, _, _, @Makes.node _ lo hi f rule parts l cs hall _ hstamp, hclean, hk, hh, hgen,
    heq => by
    have hclean' := fun m hm => hclean m (List.mem_cons_of_mem _ (List.mem_append_left _ hm))
    obtain ⟨-, hstamps⟩ := hall.stamps hclean'
    -- the node was made after those below it
    have hlater : ∀ (j : Nat) (c : Child Green) (q : List Nat) (k : Green), cs[j]? = some c →
        c.node.Has q k → k.label.stamp ≠ ⟨generation, [hi]⟩ := by
      intro j c q k hc hk heq
      obtain ⟨n, -, hhi, hn⟩ := hstamps j c q k hc hk (congrArg Stamp.generation heq)
      rw [hn] at heq
      obtain rfl := List.singleton_inj.1 (congrArg Stamp.place heq)
      exact Nat.lt_irrefl _ hhi
    cases hk with
    | self =>
      cases hh with
      | self => rfl
      | child hc hh => exact absurd (heq.symm.trans hstamp) (hlater _ _ _ _ hc hh)
    | child hc hk =>
      cases hh with
      | self => exact absurd (heq.trans hstamp) (hlater _ _ _ _ hc hk)
      | child hd hh =>
        obtain ⟨rfl, rfl⟩ := hall.inj hclean' hc hk hd hh hgen heq
        rfl

/-- No two nodes that are made have the same stamp. -/
lemma MakesAll.inj : ∀ {lo hi is cs} {a b : Nat} {c d p q k h}, MakesAll generation lo is cs hi →
    (∀ m, Call.reuse m ∈ callsOf is → ∀ q k, m.Has q k → k.label.stamp.generation ≠ generation) →
    cs[a]? = some c → c.node.Has p k → cs[b]? = some d → d.node.Has q h →
    k.label.stamp.generation = generation → k.label.stamp = h.label.stamp → a = b ∧ p = q
  | _, _, _, _, _, _, _, _, _, _, _, _, .nil, _, hc, _, _, _, _, _ => by cases hc
  | _, _, _, _, a, b, c, d, p, q, k, h, @MakesAll.cons _ lo mid hi i c₀ is cs hmakes hall, hclean, hc,
    hk, hd, hh, hgen, heq => by
    have hcleani := fun m hm => hclean m (List.mem_append_left _ hm)
    have hcleans := fun m hm => hclean m (List.mem_append_right _ hm)
    obtain ⟨-, hfirst⟩ := hmakes.stamps hcleani
    obtain ⟨-, hrest⟩ := hall.stamps hcleans
    -- what is made of the first item has lower numbers than what is made of the others
    have hapart : ∀ {j : Nat} {d : Child Green} {p q : List Nat} {k h : Green}, c₀.node.Has p k →
        cs[j]? = some d → d.node.Has q h → k.label.stamp.generation = generation →
        k.label.stamp ≠ h.label.stamp := by
      intro j d p q k h hk hd hh hgen heq
      obtain ⟨n, -, hn, hstamp⟩ := hfirst p k hk hgen
      obtain ⟨n', hn', -, hstamp'⟩ := hrest j d q h hd hh (heq ▸ hgen)
      rw [hstamp, hstamp'] at heq
      obtain rfl := List.singleton_inj.1 (congrArg Stamp.place heq)
      omega
    cases a with
    | zero =>
      obtain rfl := Option.some.inj hc
      cases b with
      | zero =>
        obtain rfl := Option.some.inj hd
        exact ⟨rfl, hmakes.inj hcleani hk hh hgen heq⟩
      | succ b => exact absurd heq (hapart hk hd hh hgen)
    | succ a =>
      cases b with
      | zero =>
        obtain rfl := Option.some.inj hd
        exact absurd heq.symm (hapart hh hc hk (heq ▸ hgen))
      | succ b =>
        obtain ⟨rfl, rfl⟩ := hall.inj hcleans hc hk hd hh hgen heq
        exact ⟨rfl, rfl⟩

end

/-- A tree that is made is that of an item. -/
lemma MakesAll.split {is : List Item} {cs : List (Child Green)} {a : Nat} {c : Child Green}
    (h : MakesAll generation lo is cs hi) (hc : cs[a]? = some c) :
    ∃ (before : List Item) (i : Item) (after : List Item) (lo hi : Nat),
      is = before ++ i :: after ∧ before.length = a ∧ Makes generation lo i c.node hi := by
  induction a generalizing lo is cs with
  | zero =>
    cases h with
    | nil => cases hc
    | cons h _ =>
      obtain rfl := Option.some.inj hc
      exact ⟨[], _, _, _, _, rfl, rfl, h⟩
  | succ a ih =>
    cases h with
    | nil => cases hc
    | @cons _ _ _ j _ _ _ _ hs =>
      obtain ⟨before, i, after, lo, hi, rfl, rfl, h⟩ := ih hs hc
      exact ⟨j :: before, i, after, lo, hi, rfl, rfl, h⟩

/-- What is made of an item is a subtree that was taken over, or it has storage of its own. -/
lemma Makes.made {i : Item} {g : Green} (h : Makes generation lo i g hi) :
    i = .reused g ∨ (∀ m, i ≠ .reused m) ∧ g.label.stamp.generation = generation := by
  cases h with
  | token _ hstamp => exact .inr ⟨nofun, congrArg Stamp.generation hstamp⟩
  | missing _ hstamp => exact .inr ⟨nofun, congrArg Stamp.generation hstamp⟩
  | reused => exact .inl rfl
  | node _ _ hstamp => exact .inr ⟨nofun, congrArg Stamp.generation hstamp⟩

/-- A node was made of the item at its path, or it stands in a subtree that was taken over. -/
theorem MakesAll.origin {is : List Item} {l : Label} {cs : List (Child Green)} {path : List Nat}
    {k : Green} (h : MakesAll generation lo is cs hi) (hk : (Green.node l cs).Has path k)
    (hne : path ≠ []) :
    (∃ ts i lo hi, At is path ts i ∧ (∀ m, i ≠ .reused m) ∧ Makes generation lo i k hi ∧
      k.label.stamp.generation = generation) ∨
    ∃ above below ts m, path = above ++ below ∧ At is above ts (.reused m) ∧
      (Green.node l cs).Has above m ∧ m.Has below k := by
  induction path generalizing lo hi is l cs with
  | nil => exact absurd rfl hne
  | cons a path ih =>
    cases hk with
    | @child _ _ _ c _ _ hc hk =>
      obtain ⟨before, i, after, lo, hi, rfl, rfl, hmakes⟩ := h.split hc
      rcases hmakes.made with rfl | ⟨hnot, hmade⟩
      · exact .inr ⟨[before.length], path, _, c.node, rfl, .here, .child hc .self, hk⟩
      · cases path with
        | nil =>
          obtain ⟨f, g⟩ := c
          cases hk with
          | self => exact .inl ⟨_, i, lo, hi, .here, hnot, hmakes, hmade⟩
        | cons b path =>
          obtain ⟨f, ⟨l', ds⟩⟩ := c
          cases hmakes with
          | token _ _ =>
            cases hk with
            | child hd _ => cases hd
          | missing _ _ =>
            cases hk with
            | child hd _ => cases hd
          | reused => exact absurd rfl (hnot _)
          | node hall _ _ =>
            rcases ih hall hk (List.cons_ne_nil _ _) with
              ⟨ts, i, lo, hi, hi', hrest⟩ | ⟨above, below, ts, m, hpath, hm, habove, hbelow⟩
            · exact .inl ⟨_, i, lo, hi, .inside hi', hrest⟩
            · refine .inr ⟨before.length :: above, below, _, m, ?_, .inside hm, .child hc habove, hbelow⟩
              rw [hpath, List.cons_append]

end

/-! ## Where the tokens of an item stand -/

/-- Whether a tree is what is built of an item whose tokens stand in order between two bytes. -/
structure BuiltAt (place : Nat → Length) (x y : Nat) (i : Item) (g : Green) : Prop where
  whole : i.Whole
  order : InOrder x i.tokens y
  bare : g.bare = (built place (place x) i).1.node

/-- The same of trees that are built of several items. -/
structure BuiltAllAt (place : Nat → Length) (x y : Nat) (is : List Item) (cs : List (Child Green)) :
    Prop where
  whole : WholeAll is
  order : InOrder x (tokensOf is) y
  bare : bareAll cs = (builtAll place (place x) is).1

section

variable {place : Nat → Length} {bound x y u v : Nat} {is : List Item} {cs : List (Child Green)}
  {a : Nat} {c : Child Green} {path : List Nat} {k : Green}

/-- Tokens that stand in order before a byte do so before a later one. -/
lemma InOrder.of_ge {x y z : Nat} {ts : List Token} (h : InOrder x ts y) (hy : y ≤ z) :
    InOrder x ts z := by
  induction ts generalizing x with
  | nil => exact Nat.le_trans h hy
  | cons t ts ih => exact ⟨h.1, h.2.1, ih h.2.2⟩

/-- A tree of an item is as wide as its tokens reach. -/
lemma BuiltAt.width {i : Item} {g : Green} (h : BuiltAt place x y i g) (hp : Coherent place bound)
    (hy : y ≤ bound) : x + g.width = endOf x i.tokens := by
  obtain ⟨⟨b, hl⟩, -⟩ := laid_built hp h.whole h.order hy
  rw [← h.bare] at hl
  exact hl.of_bare.width hp

/-- A tree of an item without an error is not void. -/
lemma BuiltAt.size_pos {i : Item} {g : Green} (h : BuiltAt place x y i g) (hp : Coherent place bound)
    (hy : y ≤ bound) (herror : g.label.hasError = false) : 0 < g.label.size.bytes := by
  have hpos := (firm_built hp h.whole h.order hy).2
  rw [← h.bare, label_bare] at hpos
  exact hpos herror

/-- A tree that is built is that of an item, from where the items before it end. -/
lemma BuiltAllAt.split (h : BuiltAllAt place x y is cs) (hp : Coherent place bound) (hy : y ≤ bound)
    (hc : (placed x cs)[a]? = some (u, c)) :
    ∃ before i after, is = before ++ i :: after ∧ before.length = a ∧ u = endOf x (tokensOf before) ∧
      BuiltAt place u y i c.node := by
  induction a generalizing is x cs with
  | zero =>
    obtain ⟨hw, ho, hcs⟩ := h
    cases cs with
    | nil => cases hc
    | cons c₀ cs =>
      obtain ⟨rfl, rfl⟩ := Prod.mk.inj (Option.some.inj hc)
      cases is with
      | nil => cases hcs
      | cons i is =>
        rw [tokensOf, inOrder_append] at ho
        have hle := Nat.le_trans ho.2.le.1 ho.2.le.2
        refine ⟨[], i, is, rfl, rfl, rfl, hw.1, InOrder.of_ge ho.1 hle, ?_⟩
        exact congrArg Child.node (List.cons.inj hcs).1
  | succ a ih =>
    obtain ⟨hw, ho, hcs⟩ := h
    cases cs with
    | nil => cases hc
    | cons c₀ cs =>
      cases is with
      | nil => cases hcs
      | cons i is =>
        rw [tokensOf, inOrder_append] at ho
        have hi : BuiltAt place x (endOf x i.tokens) i c₀.node :=
          ⟨hw.1, ho.1, congrArg Child.node (List.cons.inj hcs).1⟩
        have hle : endOf x i.tokens ≤ bound := Nat.le_trans ho.2.le.1 (Nat.le_trans ho.2.le.2 hy)
        have hwidth := hi.width hp hle
        have hnext := (laid_built hp hw.1 ho.1 hle).2
        rw [placed, hwidth] at hc
        rw [builtAll_cons, hnext] at hcs
        obtain ⟨before, j, after, rfl, rfl, rfl, hj⟩ := ih ⟨hw.2, ho.2, (List.cons.inj hcs).2⟩ hc
        refine ⟨i :: before, j, after, rfl, rfl, ?_, ?_⟩
        · rw [tokensOf, endOf_append]
        · exact hj

/-- The node at a path of trees that are built of tokens in order is what is built of the item at that
path, from where the tokens before it end. -/
theorem BuiltAllAt.locate (h : BuiltAllAt place x y is cs) (hp : Coherent place bound) (hy : y ≤ bound)
    (hc : (placed x cs)[a]? = some (u, c)) (hk : c.node.locate? path = some (v, k)) :
    ∃ ts i, At is (a :: path) ts i ∧ u + v = endOf x ts ∧ BuiltAt place (u + v) y i k := by
  induction path generalizing is x cs a u c v with
  | nil =>
    obtain ⟨before, i, after, rfl, rfl, hu, hi⟩ := h.split hp hy hc
    obtain ⟨rfl, rfl⟩ := Prod.mk.inj (Option.some.inj hk)
    exact ⟨_, i, .here, hu, hi⟩
  | cons b path ih =>
    obtain ⟨before, i, after, rfl, rfl, hu, hi⟩ := h.split hp hy hc
    obtain ⟨w, d, z, hd, hz, rfl⟩ := locate?_cons.1 hk
    obtain ⟨f₀, ⟨l, ds⟩⟩ := c
    have hds := congrArg Green.children hi.bare
    rw [children_bare] at hds
    have hne : ds ≠ [] := by
      rintro rfl
      cases hd
    cases i with
    | token f t => exact absurd (List.map_eq_nil_iff.1 ((bareAll_eq_map ds).symm.trans hds)) hne
    | missing f kind => exact absurd (List.map_eq_nil_iff.1 ((bareAll_eq_map ds).symm.trans hds)) hne
    | reused m => exact hi.whole.elim
    | node f rule parts =>
      have hparts : BuiltAllAt place u y parts ds := ⟨hi.whole.2, hi.order, hds⟩
      have hplaced : (placed u ds)[b]? = some (u + w, d) := by
        have hadd := placed_add u 0 ds
        rw [Nat.add_zero] at hadd
        rw [hadd, List.getElem?_map]
        exact congrArg (Option.map _) hd
      obtain ⟨ts, j, hj, hend, hbuilt⟩ := ih hparts hplaced hz
      refine ⟨_, j, .inside hj, ?_, ?_⟩
      · rw [endOf_append, ← hu, ← hend, Nat.add_assoc]
      · rw [← Nat.add_assoc]
        exact hbuilt

end

end Item

section

variable {strict : Prop} {d : Document} {ranges : List Span} {e : State} {items : List Item} {t : Tree}

/-- Below its root, the tree of a call is built of tokens in order. -/
lemma Builds.builtAllAt (h : Builds strict (.ofDocument d ranges) e items t) :
    BuiltAllAt (Source.ofDocument d ranges).positionAt 0 (Source.ofDocument d ranges).endOfInput items
      t.root.children := by
  have ho := Source.ordered_chars d ranges
  obtain ⟨blanks, hc, -⟩ := h.covers
  have horder := hc.inOrder ho (fun _ _ => Nat.zero_le _) (Nat.zero_le _)
    fun c hc => Source.stop_le_endOfInput ho hc
  have hchildren := congrArg Green.children h.root
  rw [children_bare] at hchildren
  refine ⟨h.whole, horder, ?_⟩
  rw [(Source.coherent_positionAt d ranges).zero]
  exact hchildren

/-- A node below the root of the tree of a call is what is built of the item at its path. -/
lemma Builds.locate (hd : d.bytes.length ≤ limit) (h : Builds strict (.ofDocument d ranges) e items t)
    {path : List Nat} {x : Nat} {k : Green} (hk : t.root.locate? path = some (x, k)) (hne : path ≠ []) :
    ∃ ts i, At items path ts i ∧ x = endOf 0 ts ∧
      BuiltAt (Source.ofDocument d ranges).positionAt x (Source.ofDocument d ranges).endOfInput i k := by
  cases path with
  | nil => exact absurd rfl hne
  | cons a path =>
    obtain ⟨u, c, v, hc, hv, rfl⟩ := locate?_cons.1 hk
    exact h.builtAllAt.locate (Source.coherent_positionAt d ranges)
      (Source.endOfInput_le_limit hd ranges) hc hv

/-- Below the root of the tree of a call, a node without an error is not void. -/
lemma Builds.size_pos (hd : d.bytes.length ≤ limit) (h : Builds strict (.ofDocument d ranges) e items t)
    {path : List Nat} {k : Green} (hk : t.root.Has path k) (hne : path ≠ [])
    (herror : k.label.hasError = false) : 0 < k.label.size.bytes := by
  obtain ⟨x, hx⟩ := has_iff.1 hk
  obtain ⟨ts, i, -, -, hbuilt⟩ := h.locate hd hx hne
  exact hbuilt.size_pos (Source.coherent_positionAt d ranges)
    (Source.endOfInput_le_limit hd ranges) herror

end

end C

end Reparse
